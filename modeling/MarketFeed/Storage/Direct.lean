import MarketFeed.Lib.Run
import MarketFeed.Storage.Sqlite
/-!
# The direct inserts (storage/db.py:340-391)

`insert_trades`, `insert_book`, `upsert_bars`, `insert_signals` and `upsert_latest` run on the connection of
`write_batch`. `sqlite3` opens a transaction before the first `INSERT` where none is open, and nothing but the
`commit()` at the end of a method ends it: a method that raises before leaves it open, with the rows it has
executed, and the next `commit()` on the connection is theirs too. `write_batch` finds it open at its `BEGIN`,
which is outside its `try`.

| here | there |
| --- | --- |
| `Direct` | the methods, with the rows they are called with; `_many` is what the last four are made of |
| `Fault.row n e ended` | an exception after `n` rows: a row with a wrong number of columns or a `NULL`, a full disk, … |
| `Db.rows` | not in the source: the rows of direct inserts that the tables hold, each with the number of its call |
| `World.calls` | how many direct inserts there have been |

`leaves_no_rows_iff` says which failures leave nothing behind.
-/

namespace Storage

open Txn Keyed

variable {F : Type} [Max F] [Min F] [Add F]

inductive Direct (F : Type)
  | insertTrades (rows : List (TradeRow F))
  | insertBook (rows : List (BookRow F))
  | upsertBars (rows : List (BarRow F))
  | insertSignals (rows : List (SignalRow F))
  | upsertLatest (rows : List (LatestRow F))

/-- `len(rows)`. -/
def Direct.len : Direct F → ℕ
  | .insertTrades rows => rows.length
  | .insertBook rows => rows.length
  | .upsertBars rows => rows.length
  | .insertSignals rows => rows.length
  | .upsertLatest rows => rows.length

/-- The statements of the method, row by row. -/
def Direct.script : Direct F → List (Stmt F)
  | .insertTrades rows => rows.map .trade ++ (latestRows rows).map .latest
  | .insertBook rows => rows.map .book
  | .upsertBars rows => rows.map .bar
  | .insertSignals rows => rows.map .signal
  | .upsertLatest rows => rows.map .latest

structure Db (F : Type) where
  tables : Tables F
  rows : List (ℕ × Stmt F)

/-- `exec`, for the call `k`. -/
def execAs (k : ℕ) (d : Db F) (s : Stmt F) : Except Exc (Db F) := (exec d.tables s).map fun t => ⟨t, d.rows ++ [(k, s)]⟩

/-- The statements before the fault. -/
def Direct.before (fault : Option Fault) (ss : List (Stmt F)) : List (Stmt F) :=
  match fault with
  | some (.row n _ _) => ss.take n
  | _ => ss

/-- The exception that ends the statements, with whether SQLite has ended the transaction. -/
def Direct.raises (fault : Option Fault) (ss : List (Stmt F)) : Option (Exc × Bool) :=
  match fault with
  | some (.row n e ended) => if n ≤ ss.length then some (e, ended) else none
  | _ => none

/-- The rows up to the fault. -/
def Direct.body (k : ℕ) (ss : List (Stmt F)) (fault : Option Fault) (d : Db F) : Db F × Option (Exc × Bool) :=
  match runTo (execAs k) (Direct.before fault ss) d with
  | (w, some e) => (w, some (e, false))
  | (w, none) => (w, Direct.raises fault ss)

/-- `self.conn.commit()`. -/
def Direct.commit (len : ℕ) (fault : Option Fault) (d w : Db F) : Conn (Db F) × Except Exc ℕ :=
  match fault with
  | some (.commit e .stillOpen) => (⟨d, some w⟩, .error e)
  | some (.commit e .rolledBack) => (idle d, .error e)
  | some (.commit e .committed) => (idle w, .error e)
  | _ => (idle w, .ok len)

/-- A direct insert, the `k`-th of them. -/
def Direct.run (k : ℕ) (x : Direct F) (fault : Option Fault) (c : Conn (Db F)) : Conn (Db F) × Except Exc ℕ :=
  if x.len = 0 then (c, .ok 0)
  else match fault with
    | some (.begin e opened) => (if opened then ⟨c.committed, some c.view⟩ else c, .error e)
    | _ =>
      match Direct.body k x.script fault c.view with
      | (w, some (e, ended)) => (if ended then idle c.committed else ⟨c.committed, some w⟩, .error e)
      | (w, none) => Direct.commit x.len fault c.committed w

/-- `write_batch` on the same connection: no row of its own is a direct insert's, and an open transaction it leaves as
it is. -/
def writeBatchOn (c : Conn (Db F)) (b : StorageBatch F) (a : Attempt) : Conn (Db F) × Except Exc BatchWriteReceipt :=
  let r := writeBatch ⟨c.committed.tables, c.work.map Db.tables⟩ b a
  (⟨⟨r.1.committed, c.committed.rows⟩, r.1.work.map fun t => ⟨t, c.view.rows⟩⟩, r.2)

structure World (F : Type) where
  conn : Conn (Db F)
  calls : ℕ

/-- A connection on the tables `t`. -/
def World.start (t : Tables F) : World F := ⟨idle ⟨t, []⟩, 0⟩

inductive Act (F : Type)
  | direct (x : Direct F) (fault : Option Fault)
  | writeBatch (b : StorageBatch F) (a : Attempt)

def World.step (w : World F) : Act F → Option (World F)
  | .direct x fault => some ⟨(x.run w.calls fault w.conn).1, w.calls + 1⟩
  | .writeBatch b a => some { w with conn := (writeBatchOn w.conn b a).1 }

/-- The failures of a direct insert that leave nothing behind: no row has been executed, or the transaction has been
rolled back. -/
def Clean (ss : List (Stmt F)) : Option Fault → Prop
  | some (.begin _ _) => True
  | some (.row n _ ended) => (ss.take n).takeWhile Stmt.bindable = [] ∨
      (ended = true ∧ ∀ s ∈ ss.take n, s.bindable = true)
  | some (.commit _ .rolledBack) => ss.takeWhile Stmt.bindable = [] ∨ ∀ s ∈ ss, s.bindable = true
  | _ => ss.takeWhile Stmt.bindable = []

/-! ## What a call leaves -/

omit [Max F] [Min F] [Add F] in
theorem script_not_receipt (x : Direct F) : ∀ s ∈ x.script, ∀ r, s ≠ .receipt r := by
  intro s hs r hr
  subst hr
  cases x <;> simp [Direct.script] at hs

omit [Max F] [Min F] [Add F] in
theorem mem_of_before {fault : Option Fault} {ss : List (Stmt F)} {s : Stmt F} (hs : s ∈ Direct.before fault ss) :
    s ∈ ss := by
  unfold Direct.before at hs
  split at hs
  · exact List.mem_of_mem_take hs
  · exact hs

theorem execAs_eq {k : ℕ} {d : Db F} {s : Stmt F} (hs : ∀ r, s ≠ .receipt r) :
    if s.bindable then ∃ t, execAs k d s = .ok ⟨t, d.rows ++ [(k, s)]⟩ else execAs k d s = .error .other := by
  split
  case isTrue hb => cases s <;> simp_all [execAs, exec, Except.map]
  case isFalse hb => simp [execAs, exec, hb, Except.map]

/-- The rows executed are those before the first that cannot be bound. -/
theorem runTo_rows {k : ℕ} {ss : List (Stmt F)} (hss : ∀ s ∈ ss, ∀ r, s ≠ .receipt r) {d w : Db F} {e : Option Exc}
    (h : runTo (execAs k) ss d = (w, e)) :
    w.rows = d.rows ++ (ss.takeWhile Stmt.bindable).map (k, ·) ∧ (e = none ↔ ∀ s ∈ ss, s.bindable = true) := by
  induction ss generalizing d with
  | nil =>
    cases h
    simp
  | cons s ss ih =>
    have hs := execAs_eq (k := k) (d := d) (hss s List.mem_cons_self)
    have ih := @ih fun t ht => hss t (List.mem_cons_of_mem s ht)
    unfold runTo at h
    split at hs
    case isTrue hb =>
      obtain ⟨t, ht⟩ := hs
      rw [ht] at h
      obtain ⟨hrows, he⟩ := ih h
      simp [hrows, he, hb]
    case isFalse hb =>
      rw [hs] at h
      cases h
      simp [hb]

/-- The call `k` has rows in the database or in the open transaction. -/
def Holds (c : Conn (Db F)) (k : ℕ) : Prop := ∃ p ∈ c.committed.rows ++ c.view.rows, p.1 = k

section Left

variable {k : ℕ} {c : Conn (Db F)} {w : Db F} {ran : List (Stmt F)}

omit [Max F] [Min F] [Add F] in
theorem holds_idle (d : Db F) : Holds (idle d) k ↔ ∃ p ∈ d.rows, p.1 = k := by simp [Holds, Conn.view, idle]

omit [Max F] [Min F] [Add F] in
theorem holds_committed (hc : ¬ Holds c k) : ¬ Holds (idle c.committed) k := by
  rw [holds_idle]
  rintro ⟨p, hp, rfl⟩
  exact hc ⟨p, List.mem_append_left _ hp, rfl⟩

omit [Max F] [Min F] [Add F] in
/-- The statements of the call are all that the working copy has of it. -/
theorem exists_row_iff (hc : ¬ Holds c k) (hw : w.rows = c.view.rows ++ ran.map (k, ·)) : (∃ p ∈ w.rows, p.1 = k) ↔
    ran ≠ [] := by
  rw [hw]
  constructor
  · rintro ⟨p, hp, hk⟩ rfl
    simp only [List.map_nil, List.append_nil] at hp
    exact hc ⟨p, List.mem_append_right _ hp, hk⟩
  · intro hne
    obtain ⟨s, ss, rfl⟩ := List.exists_cons_of_ne_nil hne
    exact ⟨(k, s), by simp, rfl⟩

omit [Max F] [Min F] [Add F] in
theorem holds_open_iff (hc : ¬ Holds c k) (hw : w.rows = c.view.rows ++ ran.map (k, ·)) :
    Holds ⟨c.committed, some w⟩ k ↔ ran ≠ [] := by
  rw [← exists_row_iff hc hw]
  constructor
  · rintro ⟨p, hp, hk⟩
    rcases List.mem_append.1 hp with hp | hp
    · exact absurd ⟨p, List.mem_append_left _ hp, hk⟩ hc
    · exact ⟨p, hp, hk⟩
  · rintro ⟨p, hp, hk⟩
    exact ⟨p, List.mem_append_right _ hp, hk⟩

/-- **What a failed call leaves.** -/
theorem holds_run_iff (hc : ¬ Holds c k) {x : Direct F} {fault : Option Fault} {e : Exc}
    (he : (x.run k fault c).2 = .error e) :
    ¬ Holds (x.run k fault c).1 k ↔ Clean x.script fault := by
  unfold Direct.run at he ⊢
  split at he
  case isTrue h0 => cases he
  case isFalse h0 =>
    rw [if_neg h0]
    split at he
    case h_1 e₀ opened =>
      have hopen : ¬ Holds ⟨c.committed, some c.view⟩ k := hc
      cases opened <;> simp [Clean, hc, hopen]
    case h_2 hbegin =>
      have hss : ∀ s ∈ Direct.before fault x.script, ∀ r, s ≠ .receipt r :=
        fun s hs => script_not_receipt x s (mem_of_before hs)
      simp only [Direct.body] at he ⊢
      obtain ⟨⟨w, r⟩, hr⟩ : ∃ r, runTo (execAs k) (Direct.before fault x.script) c.view = r := ⟨_, rfl⟩
      obtain ⟨hrows, hnone⟩ := runTo_rows hss hr
      have hclean : ¬ Holds ⟨c.committed, some w⟩ k ↔ (Direct.before fault x.script).takeWhile Stmt.bindable = [] :=
        (holds_open_iff hc hrows).not.trans not_not
      rw [hr] at he ⊢
      cases r with
      | some e' =>
        -- a row that cannot be bound comes before the fault
        have hnot : ¬ ∀ s ∈ Direct.before fault x.script, s.bindable = true := fun h => absurd (hnone.2 h) nofun
        match fault with
        | some (.row n e₀ ended) => exact hclean.trans (or_iff_left fun h => hnot h.2).symm
        | some (.commit e₀ .rolledBack) => exact hclean.trans (or_iff_left hnot).symm
        | some (.commit e₀ .stillOpen) | some (.commit e₀ .committed) | some (.select e₀) | none => exact hclean
        | some (.begin e₀ opened) => exact absurd rfl (hbegin e₀ opened)
      | none =>
        have hall := hnone.1 rfl
        match fault with
        | some (.row n e₀ ended) =>
          by_cases hn : n ≤ x.script.length
          · cases ended
            · simpa [hn, Clean, Direct.raises, Direct.before] using hclean
            · simp only [Direct.raises, hn, if_true, Clean]
              exact iff_of_true (holds_committed hc) (.inr ⟨trivial, hall⟩)
          · simp only [Direct.raises, hn, if_false, Direct.commit] at he
            cases he
        | some (.commit e₀ .stillOpen) => exact hclean
        | some (.commit e₀ .rolledBack) => exact iff_of_true (holds_committed hc) (.inr hall)
        | some (.commit e₀ .committed) =>
          simp only [Direct.raises, Direct.commit, Clean]
          rw [holds_idle, exists_row_iff hc hrows, not_not]
          rfl
        | some (.select e₀) | none => cases he
        | some (.begin e₀ opened) => exact absurd rfl (hbegin e₀ opened)

end Left

/-! ## What follows the call -/

/-- Where a call can leave the connection. -/
theorem run_cases (k : ℕ) (x : Direct F) (fault : Option Fault) (c : Conn (Db F)) :
    (x.run k fault c).1 = c ∨ (x.run k fault c).1 = ⟨c.committed, some c.view⟩ ∨
      (x.run k fault c).1 = idle c.committed ∨
      ∃ w e, runTo (execAs k) (Direct.before fault x.script) c.view = (w, e) ∧
        ((x.run k fault c).1 = ⟨c.committed, some w⟩ ∨ (x.run k fault c).1 = idle w) := by
  unfold Direct.run
  split
  case isTrue h0 => exact .inl rfl
  case isFalse h0 =>
    split
    case h_1 e opened => cases opened <;> simp
    case h_2 hbegin =>
      simp only [Direct.body]
      obtain ⟨⟨w, r⟩, hr⟩ : ∃ r, runTo (execAs k) (Direct.before fault x.script) c.view = r := ⟨_, rfl⟩
      rw [hr]
      cases r with
      | some e => exact .inr (.inr (.inr ⟨w, some e, rfl, .inl rfl⟩))
      | none =>
        cases hraises : Direct.raises fault x.script with
        | some p =>
          obtain ⟨e, ended⟩ := p
          cases ended
          · exact .inr (.inr (.inr ⟨w, none, rfl, .inl rfl⟩))
          · exact .inr (.inr (.inl rfl))
        | none =>
          simp only [Direct.commit]
          split
          · exact .inr (.inr (.inr ⟨w, none, rfl, .inl rfl⟩))
          · exact .inr (.inr (.inl rfl))
          · exact .inr (.inr (.inr ⟨w, none, rfl, .inr rfl⟩))
          · exact .inr (.inr (.inr ⟨w, none, rfl, .inr rfl⟩))

theorem Holds.of_run {k j : ℕ} {x : Direct F} {fault : Option Fault} {c : Conn (Db F)}
    (h : Holds (x.run k fault c).1 j) (hj : j ≠ k) :
    Holds c j := by
  have hrows : ∀ {w e}, runTo (execAs k) (Direct.before fault x.script) c.view = (w, e) → (∃ p ∈ w.rows, p.1 = j) →
      Holds c j := by
    rintro w e hr ⟨p, hp, rfl⟩
    rw [(runTo_rows (fun s hs => script_not_receipt x s (mem_of_before hs)) hr).1] at hp
    rcases List.mem_append.1 hp with hp | hp
    · exact ⟨p, List.mem_append_right _ hp, rfl⟩
    · obtain ⟨s, -, rfl⟩ := List.mem_map.1 hp
      exact absurd rfl hj
  rcases run_cases k x fault c with he | he | he | ⟨w, e, hr, he | he⟩ <;> rw [he] at h
  · exact h
  · exact h
  · by_contra hc
    exact holds_committed hc h
  · obtain ⟨p, hp, hk⟩ := h
    rcases List.mem_append.1 hp with hp | hp
    · exact ⟨p, List.mem_append_left _ hp, hk⟩
    · exact hrows hr ⟨p, hp, hk⟩
  · exact hrows hr ((holds_idle w).1 h)

theorem Holds.of_writeBatchOn {j : ℕ} {b : StorageBatch F} {a : Attempt} {c : Conn (Db F)}
    (h : Holds (writeBatchOn c b a).1 j) :
    Holds c j := by
  obtain ⟨p, hp, hk⟩ := h
  refine ⟨p, ?_, hk⟩
  rcases List.mem_append.1 hp with hp | hp
  · exact List.mem_append_left _ hp
  · simp only [writeBatchOn, Conn.view] at hp
    cases hw : (writeBatch ⟨c.committed.tables, c.work.map Db.tables⟩ b a).1.work <;> rw [hw] at hp
    · exact List.mem_append_left _ hp
    · exact List.mem_append_right _ hp

/-- The calls that have left rows have been made. -/
def Numbered (w : World F) : Prop := ∀ j, Holds w.conn j → j < w.calls

theorem numbered_step {w w' : World F} {a : Act F} (h : Numbered w) (hst : w.step a = some w') : Numbered w' := by
  cases a with
  | direct x fault =>
    cases hst
    intro j hj
    by_cases hk : j = w.calls
    · exact hk ▸ Nat.lt_succ_self _
    · exact Nat.lt_succ_of_lt (h j (hj.of_run hk))
  | writeBatch b a =>
    cases hst
    exact fun j hj => h j hj.of_writeBatchOn

omit [Max F] [Min F] [Add F] in
theorem numbered_start (t : Tables F) : Numbered (.start t) := by
  rintro j ⟨p, hp, -⟩
  cases hp

/-- A call whose rows are gone stays without rows. -/
theorem not_holds_step {w w' : World F} {a : Act F} {k : ℕ} (h : ¬ Holds w.conn k ∧ k < w.calls)
    (hst : w.step a = some w') :
    ¬ Holds w'.conn k ∧ k < w'.calls := by
  cases a with
  | direct x fault =>
    cases hst
    exact ⟨fun hk => h.1 (hk.of_run h.2.ne), Nat.lt_succ_of_lt h.2⟩
  | writeBatch b a =>
    cases hst
    exact ⟨fun hk => h.1 hk.of_writeBatchOn, h.2⟩

/-- The next direct insert that goes well commits what is in the open transaction. -/
theorem committed_of_view [Inhabited F] {w : World F} {k : ℕ} (h : ∃ p ∈ w.conn.view.rows, p.1 = k) :
    ∃ w', w.step (.direct (.insertSignals [⟨0, "", "", "", 0, default, default⟩]) none) = some w' ∧
      ∃ p ∈ w'.conn.committed.rows, p.1 = k := by
  obtain ⟨p, hp, hk⟩ := h
  have hexec := execAs_eq (k := w.calls) (d := w.conn.view) (s := .signal ⟨0, "", "", "", 0, (default : F), default⟩)
    (by simp)
  rw [if_pos (by simp [Stmt.bindable, Stmt.ints, int64])] at hexec
  obtain ⟨t, ht⟩ := hexec
  refine ⟨_, rfl, p, ?_, hk⟩
  simp [Direct.run, Direct.len, Direct.script, Direct.body, Direct.before, Direct.raises, Direct.commit, runTo,
    ht, idle, hp]

/-! ## The rows and the tables -/

/-- Statements that all succeed lead from `t` to `t'`. -/
def Reached (t t' : Tables F) : Prop := ∃ ss, runTo exec ss t = (t', none)

theorem Reached.refl (t : Tables F) : Reached t t := ⟨[], rfl⟩

theorem reached_of_runTo {ss : List (Stmt F)} {t w : Tables F} {e : Option Exc} (h : runTo exec ss t = (w, e)) :
    Reached t w := by
  induction ss generalizing t with
  | nil =>
    cases h
    exact .refl _
  | cons s ss ih =>
    unfold runTo at h
    cases hs : exec t s with
    | ok t' =>
      rw [hs] at h
      obtain ⟨ss', hss'⟩ := ih h
      exact ⟨s :: ss', by simp only [runTo, hs, hss']⟩
    | error e' =>
      rw [hs] at h
      cases h
      exact .refl _

theorem body_reached (a : Attempt) (ss : List (Stmt F)) (t : Tables F) : Reached t (a.body ss t).1 := by
  unfold Attempt.body
  split <;> split <;> rename_i hr <;> exact reached_of_runTo hr

/-- An attempt that finds a transaction open does nothing to it. -/
theorem writeBatch_open (t w : Tables F) (b : StorageBatch F) (a : Attempt) :
    (writeBatch ⟨t, some w⟩ b a).1 = ⟨t, some w⟩ := by
  unfold writeBatch Attempt.transaction
  repeat' split
  all_goals first | rfl | simp_all [Conn.begin]

/-- What the connection shows, to others and to itself, has come from `t`. -/
def From (t : Tables F) (c : Conn (Tables F)) : Prop := Reached t c.committed ∧ Reached t c.view

theorem From.handle {t : Tables F} {c : Conn (Tables F)} (h : From t c) (a : Attempt) (e : Exc) :
    From t (a.handle c e).1 := by
  unfold Attempt.handle
  split
  · exact h
  · exact ⟨h.1, h.1⟩
  · exact h

theorem writeBatch_from (t : Tables F) (b : StorageBatch F) (a : Attempt) : From t (writeBatch (idle t) b a).1 := by
  have hidle : From t (idle t) := ⟨.refl t, .refl t⟩
  unfold writeBatch
  split
  · exact hidle
  · split
    · exact hidle
    · split
      · exact hidle
      · exact hidle
      · simp only [Attempt.transaction, idle_begin]
        split
        case h_1 opened _ => cases opened <;> exact hidle
        case h_2 =>
          have hbody := body_reached a (b.script a.committedAt) t
          obtain ⟨⟨w, r⟩, hr⟩ : ∃ r, a.body (b.script a.committedAt) t = r := ⟨_, rfl⟩
          have hw : Reached t w := by rwa [hr] at hbody
          simp only [Conn.view, Option.getD_some, hr]
          cases r with
          | some p =>
            obtain ⟨e, ended⟩ := p
            cases ended
            · exact From.handle ⟨.refl t, hw⟩ a e
            · exact From.handle hidle a e
          | none =>
            simp only [Attempt.commit]
            split
            · exact From.handle ⟨.refl t, hw⟩ a _
            · exact From.handle hidle a _
            · exact From.handle ⟨hw, hw⟩ a _
            · exact ⟨hw, hw⟩

/-- The tables hold what a log of statements has made of `t₀`, and `rows` are those of the log that direct inserts
have executed. -/
def Replays (t₀ : Tables F) (d : Db F) : Prop :=
  ∃ log : List (Option ℕ × Stmt F), runTo exec (log.map Prod.snd) t₀ = (d.tables, none) ∧
    d.rows = log.filterMap fun p => p.1.map (·, p.2)

theorem Replays.reached {t₀ : Tables F} {d : Db F} (h : Replays t₀ d) {t : Tables F} (ht : Reached d.tables t) :
    Replays t₀ ⟨t, d.rows⟩ := by
  obtain ⟨log, hlog, hrows⟩ := h
  obtain ⟨ss, hss⟩ := ht
  refine ⟨log ++ ss.map (none, ·), ?_, ?_⟩
  · simpa [Function.comp_def, runTo_append_none hlog] using hss
  · simp [hrows, List.filterMap_map]

theorem Replays.runTo {t₀ : Tables F} {k : ℕ} {ss : List (Stmt F)} {d w : Db F} {e : Option Exc} (h : Replays t₀ d)
    (hr : runTo (execAs k) ss d = (w, e)) : Replays t₀ w := by
  induction ss generalizing d with
  | nil =>
    cases hr
    exact h
  | cons s ss ih =>
    unfold Txn.runTo at hr
    cases hs : exec d.tables s with
    | error e' =>
      simp only [execAs, hs, Except.map] at hr
      cases hr
      exact h
    | ok t =>
      simp only [execAs, hs, Except.map] at hr
      obtain ⟨log, hlog, hrows⟩ := h
      refine ih ⟨log ++ [(some k, s)], ?_, by simp [hrows]⟩ hr
      rw [List.map_append, runTo_append_none hlog]
      simp [Txn.runTo, hs]

structure Recorded (t₀ : Tables F) (c : Conn (Db F)) : Prop where
  committed : Replays t₀ c.committed
  view : Replays t₀ c.view

theorem recorded_step {t₀ : Tables F} {w w' : World F} {a : Act F} (h : Recorded t₀ w.conn) (hst : w.step a = some w') :
    Recorded t₀ w'.conn := by
  cases a with
  | direct x fault =>
    cases hst
    rcases run_cases w.calls x fault w.conn with he | he | he | ⟨d, e, hr, he | he⟩ <;> simp only [he]
    · exact h
    · exact ⟨h.committed, h.view⟩
    · exact ⟨h.committed, h.committed⟩
    · exact ⟨h.committed, h.view.runTo hr⟩
    · exact ⟨h.view.runTo hr, h.view.runTo hr⟩
  | writeBatch b a =>
    cases hst
    obtain ⟨⟨committed, work⟩, calls⟩ := w
    cases work with
    | some d =>
      have hopen := writeBatch_open committed.tables d.tables b a
      simp only [writeBatchOn, Option.map_some, hopen]
      exact h
    | none =>
      have hfrom := writeBatch_from committed.tables b a
      have hview := h.committed.reached hfrom.2
      refine ⟨h.committed.reached hfrom.1, ?_⟩
      simp only [writeBatchOn, Conn.view, Option.map_none] at hview ⊢
      rw [idle] at hview
      cases hw : (writeBatch ⟨committed.tables, none⟩ b a).1.work <;> rw [hw] at hview <;> exact hview

/-- In every run the tables, committed or not, are what a log of statements makes of the first ones, and `rows` are
the log's statements of direct inserts. -/
theorem recorded (t : Tables F) (as : List (Act F)) (w : World F)
    (h : Lts.Run World.step Lts.anyStep (.start t) as w) : Recorded t w.conn :=
  h.invariant (I := fun w => Recorded t w.conn) ⟨⟨[], rfl, rfl⟩, ⟨[], rfl, rfl⟩⟩ fun _ _ _ hs _ hst =>
    recorded_step hs hst

/-! ## The direct inserts as promised -/

/-- **Which failures leave nothing.** After a direct insert that has raised, none of its rows is ever in the committed
database, whatever direct inserts and batches follow, just when it raised before its first row was executed or SQLite
rolled the transaction back with it. -/
theorem leaves_no_rows_iff [Inhabited F] (t : Tables F) (as : List (Act F)) (w : World F)
    (h : Lts.Run World.step Lts.anyStep (.start t) as w) (x : Direct F) (fault : Option Fault) (e : Exc)
    (he : (x.run w.calls fault w.conn).2 = .error e) :
    (∀ bs w', Lts.Run World.step Lts.anyStep w (.direct x fault :: bs) w' →
      ∀ p ∈ w'.conn.committed.rows, p.1 ≠ w.calls) ↔
      Clean x.script fault := by
  have hnum : Numbered w := h.invariant (numbered_start t) fun _ _ _ hs _ hst => numbered_step hs hst
  have hfresh : ¬ Holds w.conn w.calls := fun hk => (hnum _ hk).ne rfl
  rw [← holds_run_iff hfresh he]
  constructor
  · intro hnever hk
    obtain ⟨p, hp, hpk⟩ := hk
    rcases List.mem_append.1 hp with hp | hp
    · exact hnever [] _ (.cons trivial rfl (.nil _)) p hp hpk
    · obtain ⟨w', hst, p', hp', hpk'⟩ :=
        committed_of_view (w := ⟨(x.run w.calls fault w.conn).1, w.calls + 1⟩) ⟨p, hp, hpk⟩
      exact hnever _ w' (.cons trivial rfl (.cons trivial hst (.nil w'))) p' hp' hpk'
  · rintro hk bs w' (_ | ⟨-, hst, hrun⟩) p hp hpk
    cases hst
    have hleft := hrun.invariant (I := fun v => ¬ Holds v.conn w.calls ∧ w.calls < v.calls) ⟨hk, Nat.lt_succ_self _⟩
      fun _ _ _ hs _ hst => not_holds_step hs hst
    exact hleft.1 ⟨p, List.mem_append_left _ hp, hpk⟩

/-- A signal row of one's own. -/
def signalAt (ts : Int) : SignalRow ℤ := ⟨ts, "KRX", "005930", "ma_cross", 1, 1, 70000⟩

theorem leaves_no_rows_full_disk :
    Lts.Run World.step Lts.anyStep (.start (F := ℤ) .empty) [] (.start .empty) ∧
    ((Direct.insertSignals [signalAt 1, signalAt 2]).run 0 (some (.row 1 .sqlite true)) (World.start .empty).conn).2 =
      .error .sqlite ∧
    ∀ bs w', Lts.Run World.step Lts.anyStep (.start .empty)
      (.direct (.insertSignals [signalAt 1, signalAt 2]) (some (.row 1 .sqlite true)) :: bs) w' →
      ∀ p ∈ w'.conn.committed.rows, p.1 ≠ 0 :=
  have he : ((Direct.insertSignals [signalAt 1, signalAt 2]).run 0 (some (.row 1 .sqlite true))
      (World.start .empty).conn).2 =
    .error .sqlite := rfl
  ⟨.nil _, he, (leaves_no_rows_iff .empty [] (.start .empty) (.nil _) (.insertSignals [signalAt 1, signalAt 2])
    (some (.row 1 .sqlite true)) .sqlite he).2 (.inr ⟨rfl, by decide⟩)⟩

/-- The second row of two is rejected. The next insert commits the first one with its own, and until then every batch
fails. -/
theorem rejected_row_committed :
    let bad : Act ℤ := .direct (.insertSignals [signalAt 1, signalAt 2]) (some (.row 1 .sqlite false))
    ∃ w, Lts.Run World.step Lts.anyStep (.start .empty) [bad, .direct (.insertSignals [signalAt 3]) none] w ∧
      ((Direct.insertSignals [signalAt 1, signalAt 2]).run 0 (some (.row 1 .sqlite false))
        (World.start .empty).conn).2 = .error .sqlite ∧
      w.conn.committed.tables.signals = [signalAt 1, signalAt 3] ∧
      ∃ m, Lts.Run World.step Lts.anyStep (.start .empty) [bad] m ∧
        (writeBatchOn m.conn ⟨"b", "h", [], [], [signalAt 4], []⟩ ⟨"t", none, none⟩).2 = .error .sqlite :=
  ⟨_, .cons trivial rfl (.cons trivial rfl (.nil _)), rfl, rfl, _, .cons trivial rfl (.nil _), rfl⟩

end Storage

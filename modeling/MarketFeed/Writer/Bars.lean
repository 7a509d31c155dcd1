import Mathlib.Algebra.Group.Prod
import Mathlib.Tactic.Abel
import MarketFeed.Storage.RetrySafe
import MarketFeed.Writer.Moves
/-!
# Each trade counted once (writer.py:200-259, :536-555; storage/db.py:365-373)

The upsert of a bar adds, so a bar may reach storage once, and no trade may reach a bar after its row was
taken. What storage has of a key, and what the dict has of it as long as it is not stored, are together the
trades ingested. The condition names the four steps that break this: a trade for a bar whose row is taken
or that is popped, an exception while a batch with bars is parked or its bars are not popped, and at the end
of the run a bar that both a flush and the final upsert write. Volumes are exact sums: `F` is a ring, and the sums
of floats may differ by their roundings.
-/

namespace Writer

open Storage Keyed Total Clock Lts

variable {F : Type}

/-! ## The keys of a flush -/

/-- The finished bars, from the scan until they are popped. -/
def Flush.keys : Flush F → List BarKey
  | .swap _ => []
  | .read _ done _ _ => done
  | .copy _ _ done _ => done
  | .made _ done => done
  | .write _ done => done
  | .stored _ done => done
  | .pop todo => todo

/-- Those whose row is in `bar_rows`. -/
def Flush.taken : Flush F → List BarKey
  | .read _ done todo _ => done.filter (· ∉ todo)
  | f => f.keys

/-- Those that are in storage and still in the dict. -/
def Flush.written : Flush F → List BarKey
  | .stored _ done => done
  | .pop todo => todo
  | _ => []

def State.flushKeys (w : State F) : List BarKey := match w.flush with | some f => f.keys | none => []

def State.takenKeys (w : State F) : List BarKey := match w.flush with | some f => f.taken | none => []

def State.writtenKeys (w : State F) : List BarKey := match w.flush with | some f => f.written | none => []

theorem written_subset_taken (w : State F) {k : BarKey} (h : k ∈ w.writtenKeys) : k ∈ w.takenKeys := by
  cases hf : w.flush with
  | none => simp [State.writtenKeys, hf] at h
  | some f =>
    simp only [State.writtenKeys, State.takenKeys, hf] at h ⊢
    cases f with
    | stored b done => exact h
    | pop todo => exact h
    | _ => cases h

/-- The final upsert has stored every bar of the dict. -/
def Phase.saved : Phase F → Bool
  | .stopped saved => saved
  | _ => false

/-- From the snapshot for the final upsert on. -/
def Phase.saves : Phase F → Bool
  | .saving _ => true
  | .stopped saved => saved
  | _ => false

theorem saves_of_saved {p : Phase F} (h : p.saved = true) : p.saves = true := by
  cases p with
  | stopped saved => exact h
  | _ => cases h

/-- An update that still goes to the dict did so before the pop, and is for another key. -/
theorem detach_update {cfg : Cfg} {k : BarKey} {i : Ingest F} {t : Trade F} (h : i.detach cfg k = .update t true) :
    i = .update t true ∧ t.barKey cfg.barIntervalS ≠ k := by
  cases i with
  | append row ref t' => cases h
  | lookup t' => cases h
  | update t' attached =>
    simp only [Ingest.detach, Ingest.update.injEq, Bool.and_eq_true, decide_eq_true_eq] at h
    obtain ⟨rfl, rfl, hne⟩ := h
    exact ⟨rfl, hne⟩

/-! ## The condition -/

def countsOnce (cfg : Cfg) (w : State F) : Label F → Bool
  | .update =>
    match w.ingest with
    | some (.update t attached) => attached && !w.takenKeys.contains (t.barKey cfg.barIntervalS)
    | _ => true
  | .fail =>
    match w.flush with
    | some (.write b _) => b.bars.isEmpty
    | some (.stored b _) => b.bars.isEmpty
    | some (.pop todo) => todo.isEmpty
    | _ => true
  | .scan nowNs => !w.phase.saves || w.bars.all fun b => bucketOf cfg.barIntervalS nowNs ≤ b.key.2.2
  | .snapshot => w.flushKeys.isEmpty
  | _ => true

/-- No thread is busy, nothing waits for a retry, and the bars of the dict are stored too. -/
def State.drained (w : State F) : Bool :=
  w.ingest.isNone && w.flush.isNone && w.retry.isNone && (w.bars.isEmpty || w.phase.saved)

theorem not_mem_of_lookup {bars : List (Bar F)} {k : BarKey} (h : lookup Bar.key k bars = none) :
    k ∉ bars.map Bar.key := by
  intro hk
  obtain ⟨b, hb, rfl⟩ := List.mem_map.1 hk
  have := @lookup_isSome_of_mem _ _ _ Bar.key _ _ hb
  rw [h] at this
  cases this

section

variable [CommRing F]

/-! ## Totals -/

/-- Volume and tick count. -/
def Bar.totals (b : Bar F) : F × ℤ := (b.volume, b.tickCount)

def rowTotals (r : BarRow F) : F × ℤ := (r.volume, r.tickCount)

def Trade.totals (t : Trade F) : F × ℤ := (t.qty, 1)

def State.barTotals (w : State F) (k : BarKey) : F × ℤ := amount Bar.key Bar.totals k w.bars

/-- Of the stored bar, zero where none is stored. -/
def State.storedTotals (w : State F) (k : BarKey) : F × ℤ := amount BarRow.key rowTotals (storedKey k) w.db.bars

/-- What the dict has of `k` and storage has not. -/
def State.unstored (w : State F) (k : BarKey) : F × ℤ :=
  if w.phase.saved = true ∨ k ∈ w.writtenKeys then 0 else w.barTotals k

def bucketTrades (cfg : Cfg) (k : BarKey) (ts : List (Trade F)) : List (Trade F) :=
  ts.filter fun t => decide (t.barKey cfg.barIntervalS = k)

def tradeTotals (cfg : Cfg) (k : BarKey) (ts : List (Trade F)) : F × ℤ :=
  total (fun t => decide (t.barKey cfg.barIntervalS = k)) Trade.totals ts

theorem tradeTotals_eq (cfg : Cfg) (k : BarKey) (ts : List (Trade F)) :
    tradeTotals cfg k ts = (((bucketTrades cfg k ts).map (·.qty)).sum, ((bucketTrades cfg k ts).length : ℤ)) := by
  have hsum : ∀ us : List (Trade F), (us.map Trade.totals).sum = ((us.map (·.qty)).sum, (us.length : ℤ)) := by
    intro us
    induction us with
    | nil => rfl
    | cons u us ih =>
      rw [List.map_cons, List.sum_cons, ih, List.map_cons, List.sum_cons, List.length_cons]
      show (u.qty + _, (1 : ℤ) + _) = _
      rw [Nat.cast_succ, add_comm (1 : ℤ)]
  exact hsum _

theorem tradeTotals_snoc (cfg : Cfg) (k : BarKey) (ts : List (Trade F)) (t : Trade F) :
    tradeTotals cfg k (ts ++ [t]) = tradeTotals cfg k ts + if t.barKey cfg.barIntervalS = k then t.totals else 0 := by
  rw [tradeTotals, total_append, total_cons, total_nil, add_zero]
  simp only [decide_eq_true_eq, tradeTotals]

/-! ## What changes the dict and the table -/

theorem lookup_create {bars : List (Bar F)} {k k' : BarKey} (h : (lookup Bar.key k' bars).isSome) :
    lookup Bar.key k' (bars ++ [Bar.new k]) = lookup Bar.key k' bars := by
  obtain ⟨b, hb⟩ := Option.isSome_iff_exists.1 h
  rw [lookup_append_single, hb]
  rfl

theorem amount_create (bars : List (Bar F)) (k k' : BarKey) :
    amount Bar.key Bar.totals k' (bars ++ [Bar.new k]) = amount Bar.key Bar.totals k' bars := by
  cases hb : lookup Bar.key k' bars with
  | some b => exact amount_congr (lookup_create (by rw [hb]; rfl))
  | none =>
    unfold amount
    rw [lookup_append_single, hb, Option.none_or]
    by_cases hk : Bar.key (Bar.new k : Bar F) = k'
    · rw [if_pos hk]
      rfl
    · rw [if_neg hk]

variable [LinearOrder F]

theorem lookup_update (bars : List (Bar F)) (k k' : BarKey) (t : Trade F) :
    lookup Bar.key k' (bars.map fun b => if b.key = k then b.update t else b) =
      if k' = k then (lookup Bar.key k' bars).map (·.update t) else lookup Bar.key k' bars := by
  have hkey : ∀ b : Bar F, Bar.key (if b.key = k then b.update t else b) = b.key := by
    intro b
    split <;> simp
  rw [lookup_map hkey]
  cases hb : lookup Bar.key k' bars with
  | none => simp
  | some b =>
    have hbk : b.key = k' := key_of_lookup hb
    by_cases hk : k' = k <;> simp [hbk, hk]

theorem map_key_update (bars : List (Bar F)) (k : BarKey) (t : Trade F) :
    (bars.map fun b => if b.key = k then b.update t else b).map Bar.key = bars.map Bar.key := by
  rw [List.map_map]
  refine List.map_congr_left fun b _ => ?_
  show Bar.key (if b.key = k then b.update t else b) = b.key
  split <;> simp

theorem amount_update {bars : List (Bar F)} {k : BarKey} (h : (lookup Bar.key k bars).isSome) (k' : BarKey)
    (t : Trade F) :
    amount Bar.key Bar.totals k' (bars.map fun b => if b.key = k then b.update t else b) =
      amount Bar.key Bar.totals k' bars + if k = k' then t.totals else 0 := by
  by_cases hk : k = k'
  · subst hk
    obtain ⟨b, hb⟩ := Option.isSome_iff_exists.1 h
    have hb' : lookup Bar.key k (bars.map fun b => if b.key = k then b.update t else b) = some (b.update t) := by
      rw [lookup_update, if_pos rfl, hb]
      rfl
    rw [amount_of_lookup hb, amount_of_lookup hb', if_pos rfl]
    show (b.volume + t.qty, ((b.tickCount + 1 : ℕ) : ℤ)) = (b.volume + t.qty, (b.tickCount : ℤ) + 1)
    rw [Nat.cast_succ]
  · have hb : lookup Bar.key k' (bars.map fun b => if b.key = k then b.update t else b) = lookup Bar.key k' bars := by
      rw [lookup_update, if_neg (Ne.symm hk)]
    rw [amount_congr hb, if_neg hk, add_zero]

/-- What the rows of a batch add to storage. -/
theorem amount_store (rows bars : List (BarRow F)) (k : String × String × ℤ) :
    amount BarRow.key rowTotals k (rows.foldl (upsert BarRow.key BarRow.merge) bars) =
      amount BarRow.key rowTotals k bars + total (fun r => decide (r.key = k)) rowTotals rows :=
  @amount_foldl_upsert _ _ _ BarRow.key BarRow.merge _ _ rowTotals (fun _ _ h => h) (fun _ _ => rfl) rows bars k

theorem write_bars {t : Tables F} {b : StorageBatch F} (h : Fresh t b ∨ b.bars = []) (committedAt : String) :
    (t.write b committedAt).bars = b.bars.foldl (upsert BarRow.key BarRow.merge) t.bars := by
  rcases h with h | h
  · rw [write_fresh h]
    rfl
  · unfold Tables.write
    split
    · rw [h]
      rfl
    · rfl

variable [Div F]

/-! ## The rows of a batch -/

/-- `rows` are the rows of the bars of `ks`, as the dict has them now. -/
def RowsOf (bars : List (Bar F)) (ks : List BarKey) (rows : List (BarRow F)) : Prop :=
  ks.map (fun k => (lookup Bar.key k bars).map Bar.row) = rows.map some

theorem RowsOf.nil (bars : List (Bar F)) : RowsOf bars [] [] := rfl

theorem RowsOf.keys_nil {bars : List (Bar F)} {ks : List BarKey} (h : RowsOf bars ks []) : ks = [] := by
  simpa [RowsOf] using h

theorem RowsOf.isSome {bars : List (Bar F)} {ks : List BarKey} {rows : List (BarRow F)} (h : RowsOf bars ks rows)
    {k : BarKey}
    (hk : k ∈ ks) : (lookup Bar.key k bars).isSome := by
  have hmem : (lookup Bar.key k bars).map Bar.row ∈ rows.map some := h ▸ List.mem_map_of_mem hk
  obtain ⟨r, _, hr⟩ := List.mem_map.1 hmem
  cases hb : lookup Bar.key k bars with
  | none => rw [hb] at hr; cases hr
  | some b => rfl

theorem RowsOf.congr {bars bars' : List (Bar F)} {ks : List BarKey} {rows : List (BarRow F)} (h : RowsOf bars ks rows)
    (hl : ∀ k ∈ ks, (lookup Bar.key k bars).isSome → lookup Bar.key k bars' = lookup Bar.key k bars) :
    RowsOf bars' ks rows := by
  rw [RowsOf, ← h]
  refine List.map_congr_left fun k hk => ?_
  rw [hl k hk (h.isSome hk)]

theorem RowsOf.snoc {bars : List (Bar F)} {ks : List BarKey} {rows : List (BarRow F)} (h : RowsOf bars ks rows)
    {k : BarKey}
    {b : Bar F} (hb : lookup Bar.key k bars = some b) : RowsOf bars (ks ++ [k]) (rows ++ [b.row]) := by
  rw [RowsOf, List.map_append, List.map_append, h]
  simp [hb]

theorem rowsOf_all {bars : List (Bar F)} (hn : (bars.map Bar.key).Nodup) :
    RowsOf bars (bars.map Bar.key) (bars.map Bar.row) := by
  rw [RowsOf, List.map_map, List.map_map]
  refine List.map_congr_left fun b hb => ?_
  simp [lookup_key_of_nodup hn hb]

/-- The rows add, for each key they are of, what the dict has of it. -/
theorem RowsOf.total {bars : List (Bar F)} (hd : ∀ b ∈ bars, 1000 ∣ b.bucketNs) {k : BarKey} (hk : 1000 ∣ k.2.2)
    {ks : List BarKey} (hn : ks.Nodup) {rows : List (BarRow F)} (h : RowsOf bars ks rows) :
    total (fun r => decide (r.key = storedKey k)) rowTotals rows = if k ∈ ks then amount Bar.key Bar.totals k bars
      else 0 := by
  induction ks generalizing rows with
  | nil =>
    have hrows : rows = [] := by simpa [RowsOf] using h.symm
    rw [hrows]
    rfl
  | cons k' ks ih =>
    rw [List.nodup_cons] at hn
    cases rows with
    | nil => cases h.keys_nil
    | cons r rows =>
      simp only [RowsOf, List.map_cons, List.cons.injEq] at h
      obtain ⟨hr, hrows⟩ := h
      obtain ⟨b, hb, rfl⟩ := Option.map_eq_some_iff.1 hr
      have hbk : b.key = k' := key_of_lookup hb
      have hd' : 1000 ∣ k'.2.2 := hbk ▸ hd b (mem_of_lookup hb)
      rw [total_cons, ih hn.2 hrows, row_key, hbk]
      by_cases he : k' = k
      · subst he
        rw [if_pos (by simp), if_neg hn.1, if_pos (by simp), add_zero, amount_of_lookup hb]
        rfl
      · have hne : storedKey k' ≠ storedKey k := fun hs => he (storedKey_inj hd' hk hs)
        simp only [hne, decide_false, Bool.false_eq_true, if_false, zero_add, List.mem_cons, Ne.symm he, false_or]

/-! ## The invariant -/

/-- What the locals of a flush say of the dict and of storage. -/
def Flush.Ok (bars : List (Bar F)) (db : Tables F) : Flush F → Prop
  | .swap _ => True
  | .read _ done todo rows => done.Nodup ∧ ∃ ks, done = ks ++ todo ∧ RowsOf bars ks rows
  | .copy _ _ done rows => done.Nodup ∧ RowsOf bars done rows
  | .made b done => done.Nodup ∧ RowsOf bars done b.bars ∧ (Fresh db b ∨ b.bars = [])
  | .write b done => done.Nodup ∧ RowsOf bars done b.bars ∧ (Fresh db b ∨ b.bars = [])
  | .stored b done => done.Nodup ∧ RowsOf bars done b.bars
  | .pop todo => todo.Nodup

theorem Flush.Ok.congr {bars bars' : List (Bar F)} {db : Tables F} {f : Flush F} (h : f.Ok bars db)
    (hl : ∀ k ∈ f.taken, (lookup Bar.key k bars).isSome → lookup Bar.key k bars' = lookup Bar.key k bars) :
    f.Ok bars' db := by
  cases f with
  | swap held => trivial
  | read held done todo rows =>
    obtain ⟨hn, ks, rfl, hr⟩ := h
    refine ⟨hn, ks, rfl, hr.congr fun k hk => hl k ?_⟩
    refine List.mem_filter.2 ⟨List.mem_append_left _ hk, ?_⟩
    simpa using fun hk' => (List.nodup_append.1 hn).2.2 k hk k hk' rfl
  | copy uncopied copied done rows => exact ⟨h.1, h.2.congr hl⟩
  | made b done => exact ⟨h.1, h.2.1.congr hl, h.2.2⟩
  | write b done => exact ⟨h.1, h.2.1.congr hl, h.2.2⟩
  | stored b done => exact ⟨h.1, h.2.congr hl⟩
  | pop todo => exact h

structure Counted (cfg : Cfg) (w : State F) : Prop where
  nodup : (w.bars.map Bar.key).Nodup
  dvd : ∀ b ∈ w.bars, 1000 ∣ b.bucketNs
  attached : ∀ t, w.ingest = some (.update t true) → (lookup Bar.key (t.barKey cfg.barIntervalS) w.bars).isSome
  running : w.ingest ≠ none → w.phase = .running
  flushOk : ∀ f, w.flush = some f → f.Ok w.bars w.db
  parked : ∀ b, w.retry = some b → b.bars = [] ∨ ∃ done, w.flush = some (.write b done) ∨
    w.flush = some (.stored b done)
  saving : ∀ rows, w.phase = .saving rows → rows = w.bars.map Bar.row
  closed : w.phase.saves = true → w.flushKeys = []
  totals : ∀ k : BarKey, 1000 ∣ k.2.2 → w.storedTotals k + w.unstored k = tradeTotals cfg k w.ingested

theorem counted_init (cfg : Cfg) : Counted cfg (State.init : State F) where
  nodup := List.nodup_nil
  dvd := by simp [State.init]
  attached := by simp [State.init]
  running := by simp [State.init]
  flushOk := by simp [State.init]
  parked := by simp [State.init]
  saving := by simp [State.init]
  closed := by simp [State.init, Phase.saves]
  totals := by
    intro k _
    have hun : (State.init : State F).unstored k = 0 := by
      unfold State.unstored
      split <;> rfl
    rw [hun, add_zero]
    rfl

/-- A step that leaves the dict, storage and the trades. -/
theorem Counted.frame {cfg : Cfg} {w w' : State F} (hc : Counted cfg w) (hbars : w'.bars = w.bars) (hdb : w'.db = w.db)
    (htr : w'.ingested = w.ingested) (hwr : w'.writtenKeys = w.writtenKeys) (hsd : w'.phase.saved = w.phase.saved)
    (hatt : ∀ t, w'.ingest = some (.update t true) → (lookup Bar.key (t.barKey cfg.barIntervalS) w.bars).isSome)
    (hrun : w'.ingest ≠ none → w'.phase = .running) (hfl : ∀ f, w'.flush = some f → f.Ok w.bars w.db)
    (hpark : ∀ b, w'.retry = some b → b.bars = [] ∨ ∃ done, w'.flush = some (.write b done) ∨
      w'.flush = some (.stored b done))
    (hsave : ∀ rows, w'.phase = .saving rows → rows = w.bars.map Bar.row)
    (hclosed : w'.phase.saves = true → w'.flushKeys = []) : Counted cfg w' := by
  have hst : ∀ k, w'.storedTotals k = w.storedTotals k := fun k => by rw [State.storedTotals, hdb, State.storedTotals]
  have hun : ∀ k, w'.unstored k = w.unstored k := fun k => by
    rw [State.unstored, hsd, hwr, State.barTotals, hbars, State.unstored, State.barTotals]
  refine ⟨?_, ?_, ?_, hrun, ?_, hpark, ?_, hclosed, ?_⟩
  · rw [hbars]
    exact hc.nodup
  · rw [hbars]
    exact hc.dvd
  · rw [hbars]
    exact hatt
  · rw [hbars, hdb]
    exact hfl
  · rw [hbars]
    exact hsave
  · intro k hk
    rw [hst, hun, htr]
    exact hc.totals k hk

/-- … of the event loop. -/
theorem Counted.loopStep {cfg : Cfg} {w w' : State F} (hc : Counted cfg w) (hbars : w'.bars = w.bars)
    (hdb : w'.db = w.db)
    (htr : w'.ingested = w.ingested) (hflush : w'.flush = w.flush) (hretry : w'.retry = w.retry)
    (hphase : w'.phase = w.phase)
    (hatt : ∀ t, w'.ingest = some (.update t true) → (lookup Bar.key (t.barKey cfg.barIntervalS) w.bars).isSome)
    (hrun : w'.ingest ≠ none → w.phase = .running) : Counted cfg w' := by
  refine hc.frame hbars hdb htr ?_ ?_ hatt ?_ ?_ ?_ ?_ ?_
  · rw [State.writtenKeys, hflush, State.writtenKeys]
  · rw [hphase]
  · rw [hphase]
    exact hrun
  · rw [hflush]
    exact hc.flushOk
  · rw [hretry, hflush]
    exact hc.parked
  · rw [hphase]
    exact hc.saving
  · rw [hphase, State.flushKeys, hflush]
    exact hc.closed

/-- … of a flush: its locals stay true, and no batch with bars stays parked. -/
theorem Counted.flushStep {cfg : Cfg} {w w' : State F} (hc : Counted cfg w) (hbars : w'.bars = w.bars)
    (hdb : w'.db = w.db)
    (htr : w'.ingested = w.ingested) (hing : w'.ingest = w.ingest) (hphase : w'.phase = w.phase)
    (hwr : w'.writtenKeys = w.writtenKeys) (hfl : ∀ f, w'.flush = some f → f.Ok w.bars w.db)
    (hpark : ∀ b, w'.retry = some b → b.bars = [] ∨ ∃ done, w'.flush = some (.write b done) ∨
      w'.flush = some (.stored b done))
    (hclosed : w.phase.saves = true → w'.flushKeys = []) : Counted cfg w' := by
  refine hc.frame hbars hdb htr hwr ?_ ?_ ?_ hfl hpark ?_ ?_
  · rw [hphase]
  · rw [hing]
    exact hc.attached
  · rw [hing, hphase]
    exact hc.running
  · rw [hphase]
    exact hc.saving
  · rw [hphase]
    exact hclosed

/-- A parked batch that is not the flush's own has no bars. -/
theorem Counted.parked_nil {cfg : Cfg} {w : State F} (hc : Counted cfg w) {b : StorageBatch F} (hr : w.retry = some b)
    (hf : ∀ b' done, w.flush ≠ some (.write b' done) ∧ w.flush ≠ some (.stored b' done)) : b.bars = [] := by
  rcases hc.parked b hr with h | ⟨done, h | h⟩
  · exact h
  · exact absurd h (hf b done).1
  · exact absurd h (hf b done).2

/-- A parked batch with bars is the flush's own. -/
theorem Counted.parked_own {cfg : Cfg} {w : State F} (hc : Counted cfg w) {f : Flush F} (hf : w.flush = some f)
    {b : StorageBatch F} (hr : w.retry = some b) : b.bars = [] ∨ ∃ done, f = .write b done ∨ f = .stored b done := by
  refine (hc.parked b hr).imp id fun ⟨done, h⟩ => ⟨done, ?_⟩
  rw [hf] at h
  exact h.imp Option.some.inj Option.some.inj

/-- The end of a flush that leaves nothing half done. -/
theorem Counted.endFlush {cfg : Cfg} {w : State F} (hc : Counted cfg w) (hwr : w.writtenKeys = [])
    (hpark : ∀ b, w.retry = some b → b.bars = []) : Counted cfg w.endFlush := by
  refine hc.frame rfl rfl rfl ?_ ?_ hc.attached ?_ ?_ ?_ ?_ ?_
  · rw [hwr]
    rfl
  · show w.phase.afterFlush.saved = w.phase.saved
    cases w.phase <;> rfl
  · intro hi
    have hp := hc.running hi
    show w.phase.afterFlush = _
    rw [hp]
    rfl
  · intro f hf
    cases hf
  · intro b hb
    exact .inl (hpark b hb)
  · intro rows hp
    apply hc.saving
    have hp : w.phase.afterFlush = .saving rows := hp
    cases hw : w.phase <;> rw [hw] at hp <;> simp_all [Phase.afterFlush]
  · intro _
    rfl

/-! ## The steps that move a trade or a bar -/

theorem counted_create {cfg : Cfg} {w : State F} (hc : Counted cfg w) {t : Trade F} (hi : w.ingest = some (.lookup t))
    (hb : lookup Bar.key (t.barKey cfg.barIntervalS) w.bars = none) :
    Counted cfg { w with bars := w.bars ++ [Bar.new (t.barKey cfg.barIntervalS)], ingest := some (.update t true) } := by
  have hrun : w.phase = .running := hc.running (by rw [hi]; simp)
  refine ⟨?_, ?_, ?_, fun _ => hrun, ?_, hc.parked, ?_, hc.closed, ?_⟩
  · show ((w.bars ++ [Bar.new (t.barKey cfg.barIntervalS)]).map Bar.key).Nodup
    rw [List.map_append, List.nodup_append]
    refine ⟨hc.nodup, List.nodup_singleton _, ?_⟩
    rintro k hk k' hk' rfl
    rw [List.map_singleton, List.mem_singleton, new_key] at hk'
    subst hk'
    exact not_mem_of_lookup hb hk
  · intro b hb'
    rcases List.mem_append.1 hb' with hb' | hb'
    · exact hc.dvd b hb'
    · rw [List.mem_singleton] at hb'
      subst hb'
      exact bucketOf_dvd _ _
  · rintro t' ht'
    cases ht'
    show (lookup Bar.key _ (w.bars ++ [Bar.new (t.barKey cfg.barIntervalS)])).isSome
    rw [lookup_append_single, hb, new_key, if_pos rfl]
    rfl
  · intro f hf
    exact (hc.flushOk f hf).congr fun k _ hk => lookup_create hk
  · intro rows hp
    have hp : w.phase = .saving rows := hp
    rw [hrun] at hp
    cases hp
  · intro k hk
    have hbar : State.barTotals { w with bars := w.bars ++ [Bar.new (t.barKey cfg.barIntervalS)], ingest := some (.update t true) } k =
        w.barTotals k := amount_create _ _ _
    have h := hc.totals k hk
    rw [State.unstored] at h ⊢
    rw [hbar]
    exact h

theorem counted_update {cfg : Cfg} {w : State F} (hc : Counted cfg w)
    {t : Trade F} (hi : w.ingest = some (.update t true))
    (hok : countsOnce cfg w .update = true) :
    Counted cfg
      { w with
        bars := w.bars.map fun b => if b.key = t.barKey cfg.barIntervalS then b.update t else b
        ingested := w.ingested ++ [t]
        ingest := none } := by
  have hrun : w.phase = .running := hc.running (by rw [hi]; simp)
  have hfree : t.barKey cfg.barIntervalS ∉ w.takenKeys := by simpa [countsOnce, hi] using hok
  refine ⟨?_, ?_, ?_, ?_, ?_, hc.parked, ?_, hc.closed, ?_⟩
  · show ((w.bars.map fun b => if b.key = t.barKey cfg.barIntervalS then b.update t else b).map Bar.key).Nodup
    rw [map_key_update]
    exact hc.nodup
  · intro b hb
    obtain ⟨b', hb', rfl⟩ := List.mem_map.1 hb
    split
    · exact hc.dvd b' hb'
    · exact hc.dvd b' hb'
  · rintro t' ht'
    cases ht'
  · intro h
    exact absurd rfl h
  · intro f hf
    refine (hc.flushOk f hf).congr fun k hk _ => ?_
    have hne : k ≠ t.barKey cfg.barIntervalS := by
      rintro rfl
      apply hfree
      rw [State.takenKeys, hf]
      exact hk
    rw [lookup_update, if_neg hne]
  · intro rows hp
    have hp : w.phase = .saving rows := hp
    rw [hrun] at hp
    cases hp
  · intro k hk
    have h := hc.totals k hk
    rw [tradeTotals_snoc, ← h]
    show w.storedTotals k + (if w.phase.saved = true ∨ k ∈ w.writtenKeys then 0 else
      amount Bar.key Bar.totals k (w.bars.map fun b => if b.key = t.barKey cfg.barIntervalS then b.update t else b)) = _
    rw [amount_update (hc.attached t hi), add_assoc, State.unstored]
    congr 1
    by_cases hke : t.barKey cfg.barIntervalS = k
    · have hw : ¬ (w.phase.saved = true ∨ k ∈ w.writtenKeys) := by
        rintro (hs | hw)
        · rw [hrun] at hs
          cases hs
        · exact hfree (hke ▸ written_subset_taken w hw)
      rw [if_neg hw, if_neg hw]
      rfl
    · rw [if_neg hke, add_zero, add_zero]
      rfl

theorem counted_write {cfg : Cfg} {w : State F} (hc : Counted cfg w) {b : StorageBatch F} {done : List BarKey}
    {committedAt : String} (hf : w.flush = some (.write b done)) :
    Counted cfg { w with db := w.db.write b committedAt, flush := some (.stored b done) } := by
  obtain ⟨hn, hrows, hfresh⟩ := hc.flushOk _ hf
  refine ⟨hc.nodup, hc.dvd, hc.attached, hc.running, ?_, ?_, hc.saving, ?_, ?_⟩
  · rintro f hf'
    cases hf'
    exact ⟨hn, hrows⟩
  · intro b' hb'
    rcases hc.parked_own hf hb' with h | ⟨done', h | h⟩
    · exact .inl h
    · cases h
      exact .inr ⟨done, .inr rfl⟩
    · cases h
  · intro hs
    have h := hc.closed hs
    rw [State.flushKeys, hf] at h
    exact h
  · intro k hk
    have hst := amount_store b.bars w.db.bars (storedKey k)
    rw [hrows.total hc.dvd hk hn, ← write_bars hfresh committedAt] at hst
    have h := hc.totals k hk
    have hwr : w.writtenKeys = [] := by rw [State.writtenKeys, hf]; rfl
    rw [State.unstored, hwr] at h
    rw [← h]
    show amount BarRow.key rowTotals (storedKey k) (w.db.write b committedAt).bars +
      (if w.phase.saved = true ∨ k ∈ done then 0 else w.barTotals k) = _
    rw [hst, add_assoc]
    congr 1
    by_cases hs : w.phase.saved = true
    · -- nothing is flushed any more
      have hdone : done = [] := by
        have hk := hc.closed (saves_of_saved hs)
        rw [State.flushKeys, hf] at hk
        exact hk
      simp [hs, hdone]
    · by_cases hd : k ∈ done
      · simp [hs, hd, State.barTotals]
      · simp [hs, hd]

theorem counted_pop {cfg : Cfg} {w : State F} (hc : Counted cfg w) {k : BarKey} {todo : List BarKey}
    (hf : w.flush = some (.pop (k :: todo))) :
    Counted cfg { w with bars := erase Bar.key k w.bars, ingest := w.ingest.map (·.detach cfg k), flush := some (.pop todo) } := by
  have hn : (k :: todo).Nodup := hc.flushOk _ hf
  have hopen : w.phase.saves = false := by
    cases hs : w.phase.saves with
    | false => rfl
    | true =>
      have h := hc.closed hs
      rw [State.flushKeys, hf] at h
      cases h
  refine ⟨?_, ?_, ?_, ?_, ?_, ?_, ?_, ?_, ?_⟩
  · exact hc.nodup.sublist (List.filter_sublist.map _)
  · intro b hb
    exact hc.dvd b (List.mem_of_mem_filter hb)
  · intro t ht
    obtain ⟨i, hi, hd⟩ := Option.map_eq_some_iff.1 ht
    obtain ⟨rfl, hne⟩ := detach_update hd
    show (lookup Bar.key _ (erase Bar.key k w.bars)).isSome
    rw [lookup_erase, if_neg hne]
    exact hc.attached _ hi
  · intro h
    apply hc.running
    intro hi
    apply h
    show w.ingest.map _ = none
    rw [hi]
    rfl
  · rintro f hf'
    cases hf'
    exact (List.nodup_cons.1 hn).2
  · intro b hb
    exact .inl (hc.parked_nil hb (by simp [hf]))
  · intro rows hp
    have hp : w.phase = .saving rows := hp
    rw [hp] at hopen
    cases hopen
  · intro hs
    have hs : w.phase.saves = true := hs
    rw [hs] at hopen
    cases hopen
  · intro k' hk'
    have h := hc.totals k' hk'
    have hwr : w.writtenKeys = k :: todo := by rw [State.writtenKeys, hf]; rfl
    rw [State.unstored, hwr] at h
    rw [← h]
    show w.storedTotals k' + (if w.phase.saved = true ∨
        k' ∈ todo then 0 else amount Bar.key Bar.totals k' (erase Bar.key k w.bars)) = _
    congr 1
    rw [amount_erase]
    by_cases hk : k' = k
    · rw [if_pos hk, ite_self, if_pos (.inr (hk ▸ List.mem_cons_self))]
    · simp [hk, State.barTotals]

theorem counted_save {cfg : Cfg} {w : State F} (hc : Counted cfg w)
    {rows : List (BarRow F)} (hp : w.phase = .saving rows)
    (hf : w.flush = none) :
    Counted cfg
      { w with
        db := { w.db with bars := rows.foldl (upsert BarRow.key BarRow.merge) w.db.bars }
        phase := .stopped true } := by
  have hidle : w.ingest = none := by
    by_contra hi
    have h := hc.running hi
    rw [hp] at h
    cases h
  refine ⟨hc.nodup, hc.dvd, hc.attached, ?_, ?_, hc.parked, ?_, ?_, ?_⟩
  · intro h
    exact absurd hidle h
  · intro f hf'
    have hf' : w.flush = some f := hf'
    rw [hf] at hf'
    cases hf'
  · intro rows' h
    cases h
  · intro _
    show State.flushKeys _ = []
    simp [State.flushKeys, hf]
  · intro k hk
    have hrows : rows = w.bars.map Bar.row := hc.saving rows hp
    have hst := amount_store rows w.db.bars (storedKey k)
    rw [hrows, (rowsOf_all hc.nodup).total hc.dvd hk hc.nodup, ← hrows] at hst
    have h := hc.totals k hk
    have hwr : w.writtenKeys = [] := by rw [State.writtenKeys, hf]
    rw [State.unstored, hwr, hp] at h
    rw [← h]
    show amount BarRow.key rowTotals (storedKey k) (rows.foldl (upsert BarRow.key BarRow.merge) w.db.bars) + 0 = _
    rw [hst, add_zero]
    show _ = w.storedTotals k + w.barTotals k
    congr 1
    split
    · rfl
    · rename_i hno
      symm
      unfold State.barTotals amount
      cases hb : lookup Bar.key k w.bars with
      | none => rfl
      | some b => exact absurd (key_of_lookup hb ▸ List.mem_map_of_mem (mem_of_lookup hb)) hno

theorem counted_fail {cfg : Cfg} {w : State F} (hc : Counted cfg w) {fl : Flush F} (hf : w.flush = some fl)
    (hok : countsOnce cfg w .fail = true) : Counted cfg w.endFlush := by
  cases fl with
  | write b done =>
    have hb : b.bars = [] := by simpa [countsOnce, hf] using hok
    refine hc.endFlush (by rw [State.writtenKeys, hf]; rfl) fun b' hb' => ?_
    rcases hc.parked_own hf hb' with h | ⟨done', h | h⟩
    · exact h
    · cases h
      exact hb
    · cases h
  | stored b done =>
    have hb : b.bars = [] := by simpa [countsOnce, hf] using hok
    have hdone : done = [] := by
      have hrows : RowsOf w.bars done b.bars := (hc.flushOk _ hf).2
      rw [hb] at hrows
      exact hrows.keys_nil
    refine hc.endFlush (by rw [State.writtenKeys, hf, hdone]; rfl) fun b' hb' => ?_
    rcases hc.parked_own hf hb' with h | ⟨done', h | h⟩
    · exact h
    · cases h
    · cases h
      exact hb
  | pop todo =>
    have ht : todo = [] := by simpa [countsOnce, hf] using hok
    subst ht
    exact hc.endFlush (by rw [State.writtenKeys, hf]; rfl) fun b hb => hc.parked_nil hb (by simp [hf])
  | _ => exact hc.endFlush (by rw [State.writtenKeys, hf]; rfl) fun b hb => hc.parked_nil hb (by simp [hf])

/-! ## Every step, every run -/

theorem Counted.phaseStep {cfg : Cfg} {w : State F} (hc : Counted cfg w) {p : Phase F} (hi : w.ingest = none)
    (hsd : p.saved = w.phase.saved) (hsave : ∀ rows, p = .saving rows → rows = w.bars.map Bar.row)
    (hclosed : p.saves = true → w.flushKeys = []) : Counted cfg { w with phase := p } :=
  hc.frame rfl rfl rfl rfl hsd hc.attached (fun h => absurd hi h) hc.flushOk hc.parked hsave hclosed

theorem Counted.idle {cfg : Cfg} {w : State F} (hc : Counted cfg w) (hp : w.phase ≠ .running) : w.ingest = none := by
  by_contra hi
  exact hp (hc.running hi)

/-- A flush goes on with the keys it has. -/
theorem Counted.stage {cfg : Cfg} {w : State F} (hc : Counted cfg w) {f f' : Flush F} (hf : w.flush = some f)
    (hkeys : f'.keys = f.keys) (hwr : f'.written = f.written) (hok : f.Ok w.bars w.db → f'.Ok w.bars w.db)
    {r : Option (StorageBatch F)} (hpark : ∀ b, r = some b → b.bars = [] ∨ ∃ done, f' = .write b done ∨
      f' = .stored b done) :
    Counted cfg { w with retry := r, flush := some f' } := by
  refine hc.flushStep rfl rfl rfl rfl rfl ?_ ?_ ?_ ?_
  · rw [State.writtenKeys, State.writtenKeys, hf]
    exact hwr
  · rintro f'' hf''
    cases hf''
    exact hok (hc.flushOk f hf)
  · intro b hb
    exact (hpark b hb).imp id fun ⟨done, h⟩ => ⟨done, h.imp (congrArg some) (congrArg some)⟩
  · intro hs
    have h := hc.closed hs
    rw [State.flushKeys, hf] at h
    exact hkeys.trans h

/-- A flush begins, with nothing taken. -/
theorem Counted.begin {cfg : Cfg} {w : State F} (hc : Counted cfg w) (hf : w.flush = none)
    {f : Flush F} (hkeys : f.keys = [])
    (hwr : f.written = []) (hok : f.Ok w.bars w.db) : Counted cfg { w with flush := some f } := by
  refine hc.flushStep rfl rfl rfl rfl rfl ?_ ?_ ?_ fun _ => hkeys
  · rw [State.writtenKeys, State.writtenKeys, hf]
    exact hwr
  · rintro f' hf'
    cases hf'
    exact hok
  · intro b hb
    exact .inl (hc.parked_nil hb (by simp [hf]))

theorem counted_lockRetry {cfg : Cfg} {w : State F} (hc : Counted cfg w) (hf : w.flush = none) {b : StorageBatch F}
    (hr : w.retry = some b) : Counted cfg { w with flush := some (.write b []) } := by
  have hb : b.bars = [] := hc.parked_nil hr (by simp [hf])
  refine hc.begin hf rfl rfl ⟨List.nodup_nil, ?_, .inr hb⟩
  rw [hb]
  exact RowsOf.nil _

theorem counted_scan {cfg : Cfg} {w : State F} (hc : Counted cfg w) {held : List Nat} {nowNs : Nat} {done : List BarKey}
    (hf : w.flush = some (.swap held))
    (hd : done = (w.bars.map (·.key)).filter fun k => k.2.2 < bucketOf cfg.barIntervalS nowNs)
    (hok : countsOnce cfg w (.scan nowNs) = true) : Counted cfg { w with flush := some (.read held done done []) } := by
  refine hc.flushStep rfl rfl rfl rfl rfl ?_ ?_ ?_ ?_
  · rw [State.writtenKeys, State.writtenKeys, hf]
    rfl
  · rintro f hf'
    cases hf'
    refine ⟨?_, [], rfl, RowsOf.nil _⟩
    rw [hd]
    exact hc.nodup.filter _
  · intro b hb
    exact .inl (hc.parked_nil hb (by simp [hf]))
  · intro hs
    have hall : ∀ b ∈ w.bars, bucketOf cfg.barIntervalS nowNs ≤ b.key.2.2 := by simpa [countsOnce, hs] using hok
    show done = []
    rw [hd, List.filter_eq_nil_iff]
    intro k hk
    obtain ⟨b, hb, rfl⟩ := List.mem_map.1 hk
    simpa using hall b hb

theorem counted_step {cfg : Cfg} {w w' : State F} (hc : Counted cfg w) {lbl : Label F} (hok : countsOnce cfg w lbl = true)
    (h : step cfg w lbl = some w') : Counted cfg w' := by
  cases step_moves h with
  | arrive hi hp =>
    rename_i f now
    obtain ⟨_, _, i, he, hi'⟩ := arrive_frame cfg w f now
    rw [he]
    refine hc.loopStep rfl rfl rfl rfl rfl rfl ?_ fun _ => hp
    rintro t ht
    rcases hi' with rfl | ⟨row, ref, t', rfl⟩
    · exact hc.attached t ht
    · cases ht
  | append hi =>
    rename_i row ref t
    have hrun : w.phase = .running := hc.running (by rw [hi]; simp)
    refine hc.loopStep rfl rfl rfl rfl rfl rfl ?_ fun _ => hrun
    intro t' ht'
    cases t with
    | none => cases ht'
    | some t => cases ht'
  | found hi hb =>
    have hrun : w.phase = .running := hc.running (by rw [hi]; simp)
    refine hc.loopStep rfl rfl rfl rfl rfl rfl ?_ fun _ => hrun
    rintro t' ht'
    cases ht'
    exact hb
  | create hi hb => exact counted_create hc hi hb
  | update hi => exact counted_update hc hi hok
  | detached hi => simp [countsOnce, hi] at hok
  | lockRetry hf hr => exact counted_lockRetry hc hf hr
  | lock hf hr => exact hc.begin hf rfl rfl trivial
  | swap hf =>
    refine hc.flushStep rfl rfl rfl rfl rfl (by rw [State.writtenKeys, State.writtenKeys, hf]; rfl) ?_ ?_ fun _ => rfl
    · rintro f hf'
      cases hf'
      trivial
    · intro b hb
      exact .inl (hc.parked_nil hb (by simp [hf]))
  | scan hf _ hd => exact counted_scan hc hf hd hok
  | readAll hf =>
    refine hc.stage (r := w.retry) hf (by rfl) (by rfl) ?_ fun b hb => .inl (hc.parked_nil hb (by simp [hf]))
    rintro ⟨hn, ks, hks, hrows⟩
    rw [List.append_nil] at hks
    rw [hks] at hn ⊢
    exact ⟨hn, hrows⟩
  | read hf hb =>
    refine hc.stage (r := w.retry) hf (by rfl) (by rfl) ?_ fun b hb => .inl (hc.parked_nil hb (by simp [hf]))
    rintro ⟨hn, ks, hks, hrows⟩
    refine ⟨hn, ks ++ [_], ?_, hrows.snoc hb⟩
    rw [hks, List.append_assoc]
    rfl
  | copy hf => exact hc.stage (r := w.retry) hf (by rfl) (by rfl) (by exact id) fun b hb => .inl (hc.parked_nil hb (by simp [hf]))
  | make hf hb hfresh =>
    refine hc.stage (r := w.retry) hf (by rfl) (by rfl) ?_ fun b hb => .inl (hc.parked_nil hb (by simp [hf]))
    rintro ⟨hn, hrows⟩
    subst hb
    exact ⟨hn, hrows, .inl hfresh⟩
  | park hf =>
    refine hc.stage hf (by rfl) (by rfl) (by exact id) ?_
    rintro b' hb'
    cases hb'
    exact .inr ⟨_, .inl rfl⟩
  | write hf => exact counted_write hc hf
  | clear hf => exact hc.stage hf (by rfl) (by rfl) And.left fun b' hb' => by cases hb'
  | pop hf => exact counted_pop hc hf
  | unlock hf => exact hc.endFlush (by rw [State.writtenKeys, hf]; rfl) fun b hb => hc.parked_nil hb (by simp [hf])
  | fail hf => exact counted_fail hc hf hok
  | stop hp hi => exact hc.phaseStep hi (by rw [hp]; rfl) (fun _ h => by cases h) fun h => by cases h
  | lastRetry hp hf hr =>
    have hi : w.ingest = none := hc.idle (by simp [hp])
    exact (counted_lockRetry hc hf hr).phaseStep hi (by rw [hp]; rfl) (fun _ h => by cases h) fun h => by cases h
  | last hp hf hr =>
    have hi : w.ingest = none := hc.idle (by simp [hp])
    have hl : Counted cfg { w with flush := some (.swap []) } := hc.begin hf rfl rfl trivial
    exact hl.phaseStep hi (by rw [hp]; rfl) (fun _ h => by cases h) fun h => by cases h
  | skipLast hp _ =>
    exact hc.phaseStep (hc.idle (by simp [hp])) (by rw [hp]; rfl) (fun _ h => by cases h) fun h => by cases h
  | snapshot hp =>
    refine hc.phaseStep (hc.idle (by simp [hp])) (by rw [hp]; rfl) ?_ ?_
    · rintro rows h
      cases h
      rfl
    · intro _
      simpa [countsOnce] using hok
  | save hp hf => exact counted_save hc hp hf
  | saveFails hp => exact hc.phaseStep (hc.idle (by simp [hp])) (by rw [hp]; rfl) (fun _ h => by cases h) fun h => by cases h

end

/-! ## Runs -/

/-- A trade of the first minute. -/
def minuteTrade (seq : UInt64) (qty : ℤ) : Frame ℤ :=
  ⟨seq, .trade ⟨"UPBIT", "KRW-BTC", 1000000000, 1000000000, 100, qty, 0⟩⟩

def minuteKey : BarKey := ("UPBIT", "KRW-BTC", 0)

def ingestTrade (seq : UInt64) (qty : ℤ) : List (Label ℤ) :=
  [.arrive (minuteTrade seq qty) 0, .append, .lookup, .update]

/-- A flush in the second minute, up to the parked batch. -/
def parkBars (uuid : String) : List (Label ℤ) :=
  [.lock, .swap, .swap, .swap, .scan 60000000000, .read, .read, .copy, .copy, .copy, .make uuid "d", .park]

def storeBars : List (Label ℤ) := [.write "t", .clear, .pop, .unlock]

/-- The bar of the first trade is stored and popped; the minute goes on with a failed write of a trade row, its retry
and a third trade, and the bar they make is stored at the stop. -/
def stoppedRun : List (Label ℤ) :=
  ingestTrade 1 2 ++ parkBars "u0" ++ storeBars ++ ingestTrade 2 3 ++
    ([.lock, .swap, .swap, .swap, .scan 0, .read, .copy, .copy, .copy, .make "u1" "d", .park, .fail] : List
      (Label ℤ)) ++ ingestTrade 3 4 ++
    ([.lock, .write "t", .clear, .unlock, .stop, .lockLast, .swap, .swap, .swap, .scan 0, .read, .copy, .copy, .copy,
      .make "u2" "d", .park, .write "t", .clear, .unlock, .snapshot, .save] : List (Label ℤ))

/-- The write fails, the retry stores the batch, and the next flush writes the bar once more. -/
def retriedBar : List (Label ℤ) :=
  ingestTrade 1 2 ++ parkBars "u1" ++ ([.fail, .lock, .write "t", .clear, .unlock] : List (Label ℤ)) ++
    parkBars "u2" ++ storeBars

/-- A trade comes between the read of its bar and the pop. -/
def lateTrade : List (Label ℤ) := ingestTrade 1 2 ++ parkBars "u1" ++ ingestTrade 2 3 ++ storeBars

/-- The write fails, the last flush retries it, and the final upsert repeats the bar. -/
def repeatedAtStop : List (Label ℤ) :=
  ingestTrade 1 2 ++ parkBars "u1" ++
    ([.fail, .stop, .lockLast, .write "t", .clear, .unlock, .snapshot, .save] : List (Label ℤ))

end Writer

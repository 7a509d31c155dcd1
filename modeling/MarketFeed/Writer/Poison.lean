import MarketFeed.Storage.Postgres
import MarketFeed.Writer.Moves
/-!
# No batch that fails for ever (writer.py:159-243, clock.py:45-68, storage/schema.sql:35-96)

A tuple that a column refuses fails its whole batch, and a failed batch is retried as it is. Four things the
frames can bring do not fit: a corrected latency of 2^31 µs, a sequence number of 2^63, a NUL inside a name, a
bar of 2^31 ticks. The times fit whatever the wire carries, and so do the one-byte columns.
-/

namespace Writer

open Storage Keyed Clock Double Lts

variable {F : Type}

/-! ## The condition -/

/-- Not dropped by a full buffer, nor thinned out as a book. -/
def State.accepts (cfg : Cfg) (w : State F) (f : Frame F) (now : ℚ) : Bool :=
  decide (w.pendingRowCount < cfg.writerPendingMaxRows) &&
    match f.payload with
    | .book b => !decide (binary64 (now - ((w.lastBookAt.lookup (b.venue ++ ":" ++ b.symbol)).getD 0)) < 1)
    | _ => true

def Trade.named (t : Trade F) : Bool := nulFree t.venue && nulFree t.symbol

/-- The observation is less than 2^31 µs above everything left in the window of the venue. -/
def near (m : ClockMonitor) (windowS : ℚ) (venue : String) (raw now : ℚ) : Bool :=
  ((m.estimator windowS venue now).roll now).buckets.all fun v => v.all fun v => decide (binary64 (raw - v) < 2 ^ 31)

def Frame.storable (cfg : Cfg) (clock : ClockMonitor) (f : Frame F) (now : ℚ) : Bool :=
  match f.payload with
  | .trade t =>
    t.named && decide (f.seq.toNat < 2 ^ 63) &&
      near clock cfg.clockWindowS t.venue (rawUs t.tsRecvNs.toNat t.tsEventNs.toNat) now
  | .book b => nulFree b.venue && nulFree b.symbol
  | .signal s => nulFree s.venue && nulFree s.symbol && nulFree s.strategy

def storable (cfg : Cfg) (w : State F) : Label F → Bool
  | .arrive f now => !w.accepts cfg f now || f.storable cfg w.clock now
  | .update =>
    match w.ingest with
    | some (.update t true) => w.bars.all fun b => decide (b.key = t.barKey cfg.barIntervalS → b.tickCount + 1 < 2 ^ 31)
    | _ => true
  | _ => true

/-! ## What a frame becomes -/

def Row.fits : Row F → Bool
  | .trade r => Storage.fits tradesColumns r.cells
  | .book r => Storage.fits bookColumns r.cells
  | .signal r => Storage.fits signalsColumns r.cells

/-- Nanoseconds of 64 bits end in the year 2554. -/
theorem inDatetime_wire {n : Nat} (h : n < 2 ^ 64) : inDatetime (n / 1000 : ℤ) = true := by
  simp only [inDatetime, decide_eq_true_eq]
  omega

theorem inDatetime_ns (ns : UInt64) : inDatetime (ns.toNat / 1000 : ℤ) = true := inDatetime_wire ns.toNat_lt

theorem trade_row_fits {t : Trade F} (hn : t.named = true) {latencyUs : ℤ} (hlat : inBits 32 latencyUs = true)
    {seq : UInt64}
    (hseq : seq.toNat < 2 ^ 63) : (Row.trade (t.row latencyUs seq)).fits = true := by
  simp only [Trade.named, Bool.and_eq_true] at hn
  refine (fits_trade _).2 ⟨inDatetime_ns _, hn.1, hn.2, ?_, inDatetime_ns _, hlat, ?_⟩
  · have h8 := t.side.toNat_lt
    rw [inBits_iff]
    show -2 ^ 15 ≤ (t.side.toNat : ℤ) ∧ (t.side.toNat : ℤ) < 2 ^ 15
    omega
  · rw [inBits_iff]
    show -2 ^ 63 ≤ (seq.toNat : ℤ) ∧ (seq.toNat : ℤ) < 2 ^ 63
    omega

theorem signal_row_fits {s : Signal F} (hv : nulFree s.venue = true) (hs : nulFree s.symbol = true)
    (hst : nulFree s.strategy = true) : (Row.signal s.row).fits = true := by
  refine (fits_signal _).2 ⟨inDatetime_ns _, hv, hs, hst, ?_⟩
  have hlt := s.action.toInt_lt
  have hle := s.action.le_toInt
  rw [inBits_iff]
  show -2 ^ 15 ≤ s.action.toInt ∧ s.action.toInt < 2 ^ 15
  omega

/-- A latency below 2^31 µs is an `INTEGER`. -/
theorem latency_inBits {e : SkewEstimator} {raw now : ℚ} (h : (e.observe raw now).2 < 2 ^ 31) :
    inBits 32 ⌊(e.observe raw now).2⌋ = true := by
  have h0 : 0 ≤ ⌊(e.observe raw now).2⌋ := Int.floor_nonneg.2 (le_max_left _ _)
  have h31 : ⌊(e.observe raw now).2⌋ < 2 ^ 31 := Int.floor_lt.2 (by exact_mod_cast h)
  rw [inBits_iff]
  show -2 ^ 31 ≤ ⌊(e.observe raw now).2⌋ ∧ ⌊(e.observe raw now).2⌋ < 2 ^ 31
  omega

theorem mem_modify_snoc {lists : List (List (Row F))} {row : Row F} {ref : Nat} {l : List (Row F)}
    (h : l ∈ lists.modify ref (· ++ [row])) : l ∈ lists ∨ ∃ l' ∈ lists, l = l' ++ [row] := by
  obtain ⟨i, hi⟩ := List.mem_iff_getElem?.1 h
  rw [List.getElem?_modify] at hi
  obtain ⟨l', hl', he⟩ := Option.map_eq_some_iff.1 hi
  have hmem : l' ∈ lists := List.mem_of_getElem? hl'
  by_cases hr : ref = i
  · rw [if_pos hr] at he
    exact .inr ⟨l', hmem, he.symm⟩
  · rw [if_neg hr] at he
    exact .inl (he ▸ hmem)

theorem make_fits {copied : List (Row F)} {rows : List (BarRow F)} (hc : ∀ r ∈ copied, r.fits = true)
    (hr : ∀ r ∈ rows, Storage.fits barsColumns r.cells = true) (uuid digest : String) :
    (makeStorageBatch uuid digest copied rows).fits = true := by
  refine fits_batch ?_ ?_ ?_ hr
  · intro r hr
    obtain ⟨x, hx, he⟩ := List.mem_filterMap.1 hr
    cases x <;> cases he
    exact hc _ hx
  · intro r hr
    obtain ⟨x, hx, he⟩ := List.mem_filterMap.1 hr
    cases x <;> cases he
    exact hc _ hx
  · intro r hr
    obtain ⟨x, hx, he⟩ := List.mem_filterMap.1 hr
    cases x <;> cases he
    exact hc _ hx

section

variable [CommRing F] [Div F] [LinearOrder F]

theorem book_row_fits {b : BookTop F} (hv : nulFree b.venue = true) (hs : nulFree b.symbol = true) :
    (Row.book b.row).fits = true :=
  (fits_book _).2 ⟨inDatetime_ns _, hv, hs⟩

def Bar.fits (b : Bar F) : Bool := Storage.fits barsColumns b.row.cells

theorem new_fits {t : Trade F} (hn : t.named = true) (intervalS : Nat) :
    (Bar.new (t.barKey intervalS) : Bar F).fits = true := by
  simp only [Trade.named, Bool.and_eq_true] at hn
  have hzero : inBits 32 ((0 : ℕ) : ℤ) = true := by decide
  refine (fits_bar _).2 ⟨?_, hn.1, hn.2, hzero⟩
  have hle : bucketOf intervalS t.tsEventNs.toNat ≤ t.tsEventNs.toNat := Nat.div_mul_le_self _ _
  have hlt : bucketOf intervalS t.tsEventNs.toNat < 2 ^ 64 := by
    have := t.tsEventNs.toNat_lt
    omega
  show inDatetime ((bucketOf intervalS t.tsEventNs.toNat / 1000 : ℕ) : ℤ) = true
  rw [Int.natCast_ediv]
  exact inDatetime_wire hlt

theorem update_fits {b : Bar F} (hb : b.fits = true) {t : Trade F} (hn : b.tickCount + 1 < 2 ^ 31) :
    (b.update t).fits = true := by
  obtain ⟨hts, hv, hs, _⟩ := (fits_bar _).1 hb
  refine (fits_bar _).2 ⟨hts, hv, hs, ?_⟩
  rw [inBits_iff]
  show -2 ^ 31 ≤ ((b.tickCount + 1 : ℕ) : ℤ) ∧ ((b.tickCount + 1 : ℕ) : ℤ) < 2 ^ 31
  omega

/-! ## The invariant -/

def Ingest.Fits : Ingest F → Prop
  | .append row _ t => row.fits = true ∧ ∀ t', t = some t' → t'.named = true
  | .lookup t => t.named = true
  | .update _ _ => True

def Flush.Fits : Flush F → Prop
  | .swap _ => True
  | .read _ _ _ rows => ∀ r ∈ rows, Storage.fits barsColumns r.cells = true
  | .copy _ copied _ rows => (∀ r ∈ copied, r.fits = true) ∧ ∀ r ∈ rows, Storage.fits barsColumns r.cells = true
  | .made b _ => b.fits = true
  | .write b _ => b.fits = true
  | .stored b _ => b.fits = true
  | .pop _ => True

/-- Whatever is on its way to storage fits. -/
structure Fit (w : State F) : Prop where
  clock : ∀ p ∈ w.clock, p.2.Ok
  lists : ∀ l ∈ w.lists, ∀ r ∈ l, r.fits = true
  ingest : ∀ i, w.ingest = some i → i.Fits
  bars : ∀ b ∈ w.bars, b.fits = true
  flush : ∀ f, w.flush = some f → f.Fits
  retry : ∀ b, w.retry = some b → b.fits = true

theorem fit_init : Fit (State.init : State F) where
  clock := by simp [State.init]
  lists := by simp [State.init]
  ingest := by simp [State.init]
  bars := by simp [State.init]
  flush := by simp [State.init]
  retry := by simp [State.init]

/-- A step of a flush: only its locals and the slot change. -/
theorem Fit.flushStep {w : State F} (hw : Fit w) {f : Flush F} (hf : f.Fits) : Fit { w with flush := some f } :=
  ⟨hw.clock, hw.lists, hw.ingest, hw.bars, fun f' hf' => by cases hf'; exact hf, hw.retry⟩

theorem Fit.endFlush {w : State F} (hw : Fit w) : Fit w.endFlush :=
  ⟨hw.clock, hw.lists, hw.ingest, hw.bars, fun f hf => (by cases hf), hw.retry⟩

theorem Fit.list {w : State F} (hw : Fit w) (ref : Nat) : ∀ r ∈ w.list ref, r.fits = true := by
  intro r hr
  rw [State.list, List.getD_eq_getElem?_getD] at hr
  cases hl : w.lists[ref]? with
  | none => rw [hl] at hr; cases hr
  | some l =>
    rw [hl] at hr
    exact hw.lists l (List.mem_of_getElem? hl) r hr

/-! ## Every step, every run -/

theorem estimator_ok {m : ClockMonitor} (hm : ∀ p ∈ m, p.2.Ok) (windowS : ℚ) (venue : String) (now : ℚ) :
    (m.estimator windowS venue now).Ok := by
  unfold ClockMonitor.estimator
  split
  · rename_i e he
    obtain ⟨l₁, l₂, hl, _⟩ := List.lookup_eq_some_iff.1 he
    exact hm (venue, e) (hl ▸ List.mem_append_right _ List.mem_cons_self)
  · exact new_ok windowS now

theorem fit_arrive {cfg : Cfg} {w : State F} (hw : Fit w) {f : Frame F} {now : ℚ}
    (hok : storable cfg w (.arrive f now) = true) : Fit (w.arrive cfg f now) := by
  unfold State.arrive
  by_cases hfull : cfg.writerPendingMaxRows ≤ w.pendingRowCount
  · rw [if_pos hfull]
    exact hw
  · rw [if_neg hfull]
    have hroom : w.pendingRowCount < cfg.writerPendingMaxRows := Nat.lt_of_not_le hfull
    cases hp : f.payload with
    | trade t =>
      have hst : f.storable cfg w.clock now = true := by simpa [storable, State.accepts, hroom, hp] using hok
      simp only [Frame.storable, hp, Bool.and_eq_true, decide_eq_true_eq] at hst
      obtain ⟨⟨hn, hseq⟩, hnear⟩ := hst
      have he := estimator_ok hw.clock cfg.clockWindowS t.venue now
      have hlat := observe_lt (b := 2 ^ 31) he (by norm_num) fun v hv => by
        have hv := List.all_eq_true.1 hnear _ hv
        exact of_decide_eq_true hv
      refine ⟨?_, hw.lists, ?_, hw.bars, hw.flush, hw.retry⟩
      · intro p hp'
        rcases List.mem_cons.1 hp' with rfl | hp'
        · exact observe_ok he _ now
        · exact hw.clock p (List.mem_of_mem_filter hp')
      · rintro i hi'
        cases hi'
        refine ⟨trade_row_fits hn (latency_inBits hlat) hseq, ?_⟩
        rintro t' ht'
        cases ht'
        exact hn
    | book b =>
      simp only
      split
      · exact hw
      · rename_i hsample
        have hst : f.storable cfg w.clock now = true := by
          simpa [storable, State.accepts, hroom, hp, hsample] using hok
        simp only [Frame.storable, hp, Bool.and_eq_true] at hst
        refine ⟨hw.clock, hw.lists, ?_, hw.bars, hw.flush, hw.retry⟩
        rintro i hi'
        cases hi'
        exact ⟨book_row_fits hst.1 hst.2, fun _ h => by cases h⟩
    | signal s =>
      have hst : f.storable cfg w.clock now = true := by simpa [storable, State.accepts, hroom, hp] using hok
      simp only [Frame.storable, hp, Bool.and_eq_true] at hst
      refine ⟨hw.clock, hw.lists, ?_, hw.bars, hw.flush, hw.retry⟩
      rintro i hi'
      cases hi'
      exact ⟨signal_row_fits hst.1.1 hst.1.2 hst.2, fun _ h => by cases h⟩

theorem fit_append {w : State F} (hw : Fit w) {row : Row F} {ref : Nat} {t : Option (Trade F)}
    (hi : w.ingest = some (.append row ref t)) :
    Fit { w with lists := w.lists.modify ref (· ++ [row]), accepted := w.accepted ++ [row], ingest := t.map .lookup } := by
  obtain ⟨hrow, hn⟩ := hw.ingest _ hi
  refine ⟨hw.clock, ?_, ?_, hw.bars, hw.flush, hw.retry⟩
  · intro l hl r hr
    rcases mem_modify_snoc hl with hl | ⟨l', hl', rfl⟩
    · exact hw.lists l hl r hr
    · rcases List.mem_append.1 hr with hr | hr
      · exact hw.lists l' hl' r hr
      · rw [List.mem_singleton] at hr
        exact hr ▸ hrow
  · intro i hi'
    obtain ⟨t', ht', rfl⟩ := Option.map_eq_some_iff.1 hi'
    exact hn t' ht'

theorem fit_step {cfg : Cfg} {w w' : State F} (hw : Fit w) {lbl : Label F} (hok : storable cfg w lbl = true)
    (h : step cfg w lbl = some w') : Fit w' := by
  cases step_moves h with
  | arrive => exact fit_arrive hw hok
  | append hi => exact fit_append hw hi
  | found =>
    refine ⟨hw.clock, hw.lists, ?_, hw.bars, hw.flush, hw.retry⟩
    rintro i hi'
    cases hi'
    trivial
  | create hi =>
    refine ⟨hw.clock, hw.lists, ?_, ?_, hw.flush, hw.retry⟩
    · rintro i hi'
      cases hi'
      trivial
    · intro b hb
      rcases List.mem_append.1 hb with hb | hb
      · exact hw.bars b hb
      · rw [List.mem_singleton] at hb
        exact hb ▸ new_fits (hw.ingest _ hi) _
  | update hi =>
    refine ⟨hw.clock, hw.lists, fun i hi' => (by cases hi'), ?_, hw.flush, hw.retry⟩
    intro b hb
    obtain ⟨b', hb', rfl⟩ := List.mem_map.1 hb
    rw [storable, hi] at hok
    have hroom := List.all_eq_true.1 hok b' hb'
    split
    · rename_i hk
      exact update_fits (hw.bars b' hb') (of_decide_eq_true hroom hk)
    · exact hw.bars b' hb'
  | detached => exact ⟨hw.clock, hw.lists, fun i hi' => (by cases hi'), hw.bars, hw.flush, hw.retry⟩
  | lockRetry _ hr => exact hw.flushStep (hw.retry _ hr)
  | lock => exact hw.flushStep trivial
  | swap =>
    refine ⟨hw.clock, ?_, hw.ingest, hw.bars, fun f hf => (by cases hf; trivial), hw.retry⟩
    intro l hl r hr
    rcases List.mem_append.1 hl with hl | hl
    · exact hw.lists l hl r hr
    · rw [List.mem_singleton] at hl
      rw [hl] at hr
      cases hr
  | scan => exact hw.flushStep fun r hr => by cases hr
  | readAll hf => exact hw.flushStep ⟨fun r hr => (by cases hr), hw.flush _ hf⟩
  | read hf hb =>
    refine hw.flushStep fun r hr => ?_
    rcases List.mem_append.1 hr with hr | hr
    · exact hw.flush _ hf r hr
    · rw [List.mem_singleton] at hr
      exact hr ▸ hw.bars _ (mem_of_lookup hb)
  | copy hf =>
    obtain ⟨hc, hr⟩ := hw.flush _ hf
    refine hw.flushStep ⟨fun r hr' => ?_, hr⟩
    rcases List.mem_append.1 hr' with hr' | hr'
    · exact hc r hr'
    · exact hw.list _ r hr'
  | make hf hb _ =>
    obtain ⟨hc, hr⟩ := hw.flush _ hf
    subst hb
    exact hw.flushStep (make_fits hc hr _ _)
  | park hf =>
    have hb := hw.flush _ hf
    exact ⟨hw.clock, hw.lists, hw.ingest, hw.bars, fun f hf => (by cases hf; exact hb),
      fun b' hb' => (by cases hb'; exact hb)⟩
  | write hf =>
    have hb := hw.flush _ hf
    exact ⟨hw.clock, hw.lists, hw.ingest, hw.bars, fun f hf => (by cases hf; exact hb), hw.retry⟩
  | clear => exact ⟨hw.clock, hw.lists, hw.ingest, hw.bars, fun f hf => (by cases hf; trivial),
      fun b hb => (by cases hb)⟩
  | pop =>
    refine ⟨hw.clock, hw.lists, ?_, fun b hb => hw.bars b (List.mem_of_mem_filter hb),
      fun f hf => (by cases hf; trivial), hw.retry⟩
    intro i hi
    obtain ⟨i', hi', rfl⟩ := Option.map_eq_some_iff.1 hi
    have h := hw.ingest i' hi'
    cases i' with
    | update t attached => trivial
    | append row ref t => exact h
    | lookup t => exact h
  | unlock => exact hw.endFlush
  | fail => exact hw.endFlush
  | stop => exact ⟨hw.clock, hw.lists, hw.ingest, hw.bars, hw.flush, hw.retry⟩
  | lastRetry _ _ hr =>
    have h := hw.flushStep (f := .write _ []) (hw.retry _ hr)
    exact ⟨h.clock, h.lists, h.ingest, h.bars, h.flush, h.retry⟩
  | last =>
    have h := hw.flushStep (f := .swap []) trivial
    exact ⟨h.clock, h.lists, h.ingest, h.bars, h.flush, h.retry⟩
  | skipLast => exact ⟨hw.clock, hw.lists, hw.ingest, hw.bars, hw.flush, hw.retry⟩
  | snapshot => exact ⟨hw.clock, hw.lists, hw.ingest, hw.bars, hw.flush, hw.retry⟩
  | save => exact ⟨hw.clock, hw.lists, hw.ingest, hw.bars, hw.flush, hw.retry⟩
  | saveFails => exact ⟨hw.clock, hw.lists, hw.ingest, hw.bars, hw.flush, hw.retry⟩

end

/-! ## Runs -/

/-- A trade received at a fixed time, that many seconds after it happened. -/
def agedTrade (symbol : String) (seq ageS : UInt64) : Frame ℤ :=
  ⟨seq, .trade ⟨"UPBIT", symbol, 1753000000000000000 - ageS * 1000000000, 1753000000000000000, 100, 1, 1⟩⟩

def takeTrade (f : Frame ℤ) (now : ℚ) : List (Label ℤ) := [.arrive f now, .append, .lookup, .update]

/-- A flush, up to the parked batch. -/
def parkTrades : List (Label ℤ) :=
  [.lock, .swap, .swap, .swap, .scan 0, .read, .copy, .copy, .copy, .make "u1" "d1", .park]

/-- Thirty minutes behind the fastest trade of the window, and the batch is retried. -/
def storableRun : List (Label ℤ) :=
  takeTrade (agedTrade "KRW-BTC" 1 0) 0 ++ takeTrade (agedTrade "KRW-BTC" 2 1800) 1 ++ parkTrades ++ [.fail, .lock]

/-- A trade of three hours ago, as a snapshot brings it. -/
def snapshotRun : List (Label ℤ) :=
  takeTrade (agedTrade "KRW-BTC" 1 0) 0 ++ takeTrade (agedTrade "KRW-BTC" 2 10800) 1 ++ parkTrades ++ [.fail, .lock]

/-- A sequence number that uses the sign bit. -/
def highSeqRun : List (Label ℤ) := takeTrade (agedTrade "KRW-BTC" 9223372036854775808 0) 0 ++ parkTrades ++
    [.fail, .lock]

/-- A symbol with a NUL inside. -/
def nulRun : List (Label ℤ) :=
  takeTrade (agedTrade (String.ofList ['K', Char.ofNat 0, 'W']) 1 0) 0 ++ parkTrades ++ [.fail, .lock]

/-- The run leaves a batch that a column refuses, and retries it as it is. -/
def Poisons (ls : List (Label ℤ)) : Prop :=
  ∃ w b, Run (step minuteCfg) anyStep .init ls w ∧ w.flush = some (.write b []) ∧ w.retry = some b ∧ b.fits = false

theorem poisons_of_exec {ls : List (Label ℤ)} (h : ((exec (step minuteCfg) anyStep .init ls).any fun w =>
    w.retry.any fun b => decide (w.flush = some (.write b []) ∧ b.fits = false)) = true) : Poisons ls := by
  obtain ⟨w, b, hrun, hb, hfl, hno⟩ := exists_run_some h
  exact ⟨w, b, hrun, hfl, hb, hno⟩

end Writer

import Mathlib.Data.List.Induction
import Mathlib.Tactic.Common
import MarketFeed.Lib.OrderBy
import MarketFeed.Strategy.Bars
/-!
# When the live bars are the tape's (services/strategy.py:80-92, quant/backtest.py:285-311)

The engine closes a bar at any change of bucket, so a late trade of an earlier bucket closes the running
bar and opens a second one of a bucket that was closed already; the tape puts the trade where it belongs.
The two agree exactly on the trades whose buckets never go back.
-/

namespace Strategy

open Writer

variable {F : Type} [Zero F] [Add F] [Mul F] [Max F] [Min F] {intervalS : ℕ} {venue symbol : String}

/-! ## The tape -/

/-- The trades of one symbol. -/
def OfSymbol (venue symbol : String) (trades : List (Trade F)) : Prop := ∀ t ∈ trades, t.venue = venue ∧
    t.symbol = symbol

omit [Zero F] [Add F] [Mul F] [Max F] [Min F] in
theorem OfSymbol.snoc {trades : List (Trade F)} {t : Trade F} (h : OfSymbol venue symbol (trades ++ [t])) :
    OfSymbol venue symbol trades ∧ t.venue = venue ∧ t.symbol = symbol :=
  ⟨fun u hu => h u (List.mem_append_left _ hu), h t (by simp)⟩

theorem tapeBars_snoc {trades : List (Trade F)} {t : Trade F} (hv : t.venue = venue) (hs : t.symbol = symbol) :
    tapeBars intervalS venue symbol (trades ++ [t]) =
      tapeUpdate venue symbol (tradeBucket intervalS t) t (tapeBars intervalS venue symbol trades) := by
  simp [tapeBars, hv, hs]

/-- The dict has one bar of every bucket a trade fell into. -/
theorem tapeBars_buckets {trades : List (Trade F)} (hone : OfSymbol venue symbol trades) :
    ((tapeBars intervalS venue symbol trades).map (·.bucketNs)).Nodup ∧
      ∀ b, b ∈ (tapeBars intervalS venue symbol trades).map (·.bucketNs) ↔ b ∈ trades.map (tradeBucket intervalS) := by
  induction trades using List.reverseRecOn with
  | nil => exact ⟨List.nodup_nil, fun b => Iff.rfl⟩
  | append_singleton trades t ih =>
    obtain ⟨htrades, hv, hs⟩ := hone.snoc
    obtain ⟨hn, hmem⟩ := ih htrades
    rw [tapeBars_snoc hv hs, tapeUpdate_buckets]
    split
    · rename_i hin
      refine ⟨hn, fun b => ?_⟩
      rw [hmem b, List.map_append, List.mem_append]
      constructor
      · exact .inl
      · rintro (hb | hb)
        · exact hb
        · rw [List.mem_singleton.1 hb]
          exact (hmem _).1 hin
    · rename_i hnew
      refine ⟨hn.append (List.nodup_singleton _) ?_, fun b => ?_⟩
      · intro b hb hb'
        exact hnew (List.mem_singleton.1 hb' ▸ hb)
      · rw [List.mem_append, hmem b, List.map_append, List.mem_append]
        rfl

/-! ## The engine -/

/-- What the engine has of a symbol after its trades, as against the tape. -/
structure Follows (intervalS : ℕ) (venue symbol : String) (trades : List (Trade F)) : Prop where
  fresh : (liveRun intervalS trades).bars (symbolKey venue symbol) = none →
    (liveRun intervalS trades).closed.map Prod.snd = []
  buckets : ∀ b, b ∈ ((liveRun intervalS trades).all (symbolKey venue symbol)).map (·.bucketNs) ↔
    b ∈ trades.map (tradeBucket intervalS)
  ordered : (((liveRun intervalS trades).all (symbolKey venue symbol)).map (·.bucketNs)).Pairwise (· < ·) ↔
    (trades.map (tradeBucket intervalS)).Pairwise (· ≤ ·)
  same : (((liveRun intervalS trades).all (symbolKey venue symbol)).map (·.bucketNs)).Pairwise (· < ·) →
    tapeBars intervalS venue symbol trades = (liveRun intervalS trades).all (symbolKey venue symbol)

section Step

variable {trades : List (Trade F)} {t : Trade F} (h : Follows intervalS venue symbol trades)
  (hv : t.venue = venue) (hs : t.symbol = symbol)

include h hv hs

/-- One more trade of the bucket that is open. -/
theorem Follows.update {bar : Bar F} (hbar : (liveRun intervalS trades).bars (symbolKey venue symbol) = some bar)
    (hb : bar.bucketNs = tradeBucket intervalS t)
    (hclosed : (liveRun intervalS (trades ++ [t])).closed = (liveRun intervalS trades).closed)
    (hopen : (liveRun intervalS (trades ++ [t])).bars (symbolKey venue symbol) = some (bar.update t)) :
    Follows intervalS venue symbol (trades ++ [t]) := by
  have hall : (liveRun intervalS trades).all (symbolKey venue symbol) = (liveRun intervalS trades).closed.map
      Prod.snd ++ [bar] := by
    rw [Engine.all, hbar]
    rfl
  have hall' : (liveRun intervalS (trades ++ [t])).all (symbolKey venue symbol) =
      (liveRun intervalS trades).closed.map Prod.snd ++ [bar.update t] := by
    rw [Engine.all, hopen, hclosed]
    rfl
  have hsame : ((liveRun intervalS (trades ++ [t])).all (symbolKey venue symbol)).map (·.bucketNs) =
      ((liveRun intervalS trades).all (symbolKey venue symbol)).map (·.bucketNs) := by
    rw [hall, hall', List.map_append, List.map_append]
    rfl
  have hin : tradeBucket intervalS t ∈ ((liveRun intervalS trades).all (symbolKey venue symbol)).map (·.bucketNs) := by
    rw [hall, ← hb]
    simp
  -- in increasing order the open bucket is the greatest
  have hle : (((liveRun intervalS trades).all (symbolKey venue symbol)).map (·.bucketNs)).Pairwise (· < ·) →
      ∀ b ∈ (liveRun intervalS trades).closed.map Prod.snd, b.bucketNs < tradeBucket intervalS t := by
    intro hsort b hmem
    rw [hall, List.map_append] at hsort
    rw [← hb]
    exact (List.pairwise_append.1 hsort).2.2 _ (List.mem_map_of_mem hmem) _ (by simp)
  refine ⟨fun hnone => (by rw [hopen] at hnone; cases hnone), fun b => ?_, ?_, fun hsort => ?_⟩
  · rw [hsame, h.buckets, List.map_append, List.mem_append]
    constructor
    · exact .inl
    · rintro (hb' | hb')
      · exact hb'
      · rw [List.mem_singleton.1 hb']
        exact (h.buckets _).1 hin
  · rw [hsame, h.ordered, List.map_append, List.pairwise_append]
    refine ⟨fun hord => ⟨hord, List.pairwise_singleton _ _, fun a ha b hb' => ?_⟩, fun hord => hord.1⟩
    rw [List.map_singleton, List.mem_singleton] at hb'
    subst hb'
    have hmem := (h.buckets a).2 ha
    rw [hall, List.map_append, List.mem_append] at hmem
    rcases hmem with hmem | hmem
    · obtain ⟨c, hc, rfl⟩ := List.mem_map.1 hmem
      exact le_of_lt (hle (h.ordered.2 hord) c hc)
    · rw [List.map_singleton, List.mem_singleton] at hmem
      rw [hmem, hb]
  · rw [hsame] at hsort
    have hne : ∀ b ∈ (liveRun intervalS trades).closed.map Prod.snd, b.bucketNs ≠ tradeBucket intervalS t :=
        fun b hmem =>
      ne_of_lt (hle hsort b hmem)
    rw [tapeBars_snoc hv hs, h.same hsort, hall, hall', tapeUpdate_append_of_notMem hne, tapeUpdate, if_pos hb]

/-- The first trade of another bucket. -/
theorem Follows.close
    (hne : ∀ bar, (liveRun intervalS trades).bars (symbolKey venue symbol) = some bar →
      bar.bucketNs ≠ tradeBucket intervalS t)
    (hclosed : (liveRun intervalS (trades ++ [t])).closed.map Prod.snd = (liveRun intervalS trades).all
      (symbolKey venue symbol))
    (hopen : (liveRun intervalS (trades ++ [t])).bars (symbolKey venue symbol) =
      some ((Bar.new (venue, symbol, tradeBucket intervalS t)).update t)) :
    Follows intervalS venue symbol (trades ++ [t]) := by
  have hall' : (liveRun intervalS (trades ++ [t])).all (symbolKey venue symbol) =
      (liveRun intervalS trades).all (symbolKey venue symbol) ++
        [(Bar.new (venue, symbol, tradeBucket intervalS t)).update t] := by
    rw [Engine.all, hopen, hclosed]
    rfl
  have hbuckets : ((liveRun intervalS (trades ++ [t])).all (symbolKey venue symbol)).map (·.bucketNs) =
      ((liveRun intervalS trades).all (symbolKey venue symbol)).map (·.bucketNs) ++ [tradeBucket intervalS t] := by
    rw [hall', List.map_append]
    rfl
  refine ⟨fun hnone => (by rw [hopen] at hnone; cases hnone), fun b => ?_, ?_, fun hsort => ?_⟩
  · rw [hbuckets, List.mem_append, h.buckets, List.map_append, List.mem_append]
    rfl
  · rw [hbuckets, List.map_append, List.pairwise_append, List.pairwise_append, h.ordered]
    simp only [List.pairwise_singleton, true_and, List.map_singleton, List.mem_singleton, forall_eq]
    refine and_congr_right fun hord => ⟨fun hlt a ha => le_of_lt (hlt a ((h.buckets a).2 ha)), fun hle a ha => ?_⟩
    have hsort := h.ordered.2 hord
    cases hbar : (liveRun intervalS trades).bars (symbolKey venue symbol) with
    | none =>
      rw [Engine.all, hbar, h.fresh hbar] at ha
      cases ha
    | some bar =>
      have hall : (liveRun intervalS trades).all (symbolKey venue symbol) = (liveRun intervalS trades).closed.map
          Prod.snd ++ [bar] := by
        rw [Engine.all, hbar]
        rfl
      have hmem : bar.bucketNs ∈ ((liveRun intervalS trades).all (symbolKey venue symbol)).map (·.bucketNs) := by
        rw [hall]
        simp
      have hlt : bar.bucketNs < tradeBucket intervalS t :=
        lt_of_le_of_ne (hle _ ((h.buckets _).1 hmem)) (hne bar hbar)
      rw [hall, List.map_append] at ha hsort
      rcases List.mem_append.1 ha with ha | ha
      · exact lt_trans ((List.pairwise_append.1 hsort).2.2 a ha bar.bucketNs (by simp)) hlt
      · rw [List.map_singleton, List.mem_singleton] at ha
        exact ha ▸ hlt
  · rw [hbuckets, List.pairwise_append] at hsort
    have hnotin : ∀ b ∈ (liveRun intervalS trades).all (symbolKey venue symbol),
        b.bucketNs ≠ tradeBucket intervalS t := fun b hb =>
      ne_of_lt (hsort.2.2 _ (List.mem_map_of_mem hb) _ (by simp))
    have happ : tapeUpdate venue symbol (tradeBucket intervalS t) t
        ((liveRun intervalS trades).all (symbolKey venue symbol)) =
        (liveRun intervalS trades).all (symbolKey venue symbol) ++
          tapeUpdate venue symbol (tradeBucket intervalS t) t [] := by
      rw [← tapeUpdate_append_of_notMem hnotin t [], List.append_nil]
    rw [tapeBars_snoc hv hs, h.same hsort.1, hall', happ]
    rfl

end Step

theorem follows {trades : List (Trade F)} (hone : OfSymbol venue symbol trades) :
    Follows intervalS venue symbol trades := by
  induction trades using List.reverseRecOn with
  | nil => exact ⟨fun _ => rfl, fun b => Iff.rfl, ⟨fun _ => .nil, fun _ => .nil⟩, fun _ => rfl⟩
  | append_singleton trades t ih =>
    obtain ⟨htrades, hv, hs⟩ := hone.snoc
    have h := ih htrades
    have hstep := @onTrade_all F _ _ _ _ _ intervalS venue symbol t hv hs (liveRun intervalS trades)
    rw [← liveRun_snoc] at hstep
    rcases hstep with ⟨bar, hbar, hb, hclosed, hopen⟩ | ⟨hne, hclosed, hopen⟩
    · exact h.update hv hs hbar hb hclosed hopen
    · exact h.close hv hs hne hclosed hopen

/-! ## Both -/

/-- The tape's bars, sorted: in increasing order of their buckets. -/
theorem sorted_buckets {trades : List (Trade F)} (hone : OfSymbol venue symbol trades) :
    ((loadBarsFromReplay intervalS venue symbol trades).map (·.bucketNs)).Pairwise (· < ·) ∧
      ∀ b, b ∈ (loadBarsFromReplay intervalS venue symbol trades).map (·.bucketNs) ↔
      b ∈ trades.map (tradeBucket intervalS) := by
  obtain ⟨hn, hmem⟩ := @tapeBars_buckets F _ _ _ _ _ intervalS venue symbol trades hone
  have hperm := List.perm_insertionSort (fun a b : Bar F => a.bucketNs ≤ b.bucketNs)
    (tapeBars intervalS venue symbol trades)
  have hmap : (loadBarsFromReplay intervalS venue symbol trades).map (·.bucketNs) =
      ((tapeBars intervalS venue symbol trades).insertionSort fun a b => a.bucketNs ≤ b.bucketNs).map (·.bucketNs) := by
    rw [loadBarsFromReplay, List.map_map]
    rfl
  rw [hmap]
  constructor
  · have hle : (((tapeBars intervalS venue symbol trades).insertionSort fun a b => a.bucketNs ≤ b.bucketNs).map
        (·.bucketNs)).Pairwise (· ≤ ·) := by
      rw [List.pairwise_map]
      exact OrderBy.pairwise_insertionSort_key (fun b : Bar F => b.bucketNs) _
    have hnodup := (hperm.map (·.bucketNs)).nodup_iff.2 hn
    exact (hle.and hnodup).imp fun h => lt_of_le_of_ne h.1 h.2
  · intro b
    rw [(hperm.map (·.bucketNs)).mem_iff]
    exact hmem b

omit [Zero F] [Add F] [Mul F] [Max F] [Min F] in
/-- Bars in increasing order are sorted as they are. -/
theorem insertionSort_bars {bars : List (Bar F)} (h : (bars.map (·.bucketNs)).Pairwise (· < ·)) :
    bars.insertionSort (fun a b => a.bucketNs ≤ b.bucketNs) = bars := by
  apply List.Pairwise.insertionSort_eq
  exact (List.pairwise_map.1 h).imp le_of_lt

/-- The closed bars are those of the tape but for the last, in increasing order. -/
def LiveIsTape (intervalS : ℕ) (venue symbol : String) (trades : List (Trade F)) : Prop :=
  ((closedBars intervalS trades).map (·.bucketNs)).Pairwise (· < ·) ∧
    (closedBars intervalS trades).map BarRow.ofBar = (loadBarsFromReplay intervalS venue symbol trades).dropLast

/-- **The bars closed live are those of the tape exactly when no trade goes back to an earlier bucket than the
trade before it.** -/
theorem live_bars_eq_tape_iff {trades : List (Trade F)} (hone : OfSymbol venue symbol trades) :
    LiveIsTape intervalS venue symbol trades ↔ (trades.map (tradeBucket intervalS)).Pairwise (· ≤ ·) := by
  have h : Follows intervalS venue symbol trades := follows hone
  rw [← h.ordered]
  cases hbar : (liveRun intervalS trades).bars (symbolKey venue symbol) with
  | none =>
    -- no trade yet
    have hclosed : closedBars intervalS trades = [] := h.fresh hbar
    have hall : (liveRun intervalS trades).all (symbolKey venue symbol) = [] := by
      rw [Engine.all, hbar, h.fresh hbar]
      rfl
    have htape : loadBarsFromReplay intervalS venue symbol trades = [] := by
      rw [loadBarsFromReplay, h.same (by rw [hall]; exact .nil), hall]
      rfl
    rw [LiveIsTape, hclosed, hall, htape]
    exact ⟨fun _ => .nil, fun _ => ⟨.nil, rfl⟩⟩
  | some bar =>
    have hall : (liveRun intervalS trades).all (symbolKey venue symbol) = closedBars intervalS trades ++ [bar] := by
      rw [Engine.all, hbar]
      rfl
    constructor
    · rintro ⟨hinc, heq⟩
      obtain ⟨hsort, hmem⟩ := @sorted_buckets F _ _ _ _ _ intervalS venue symbol trades hone
      have hne : loadBarsFromReplay intervalS venue symbol trades ≠ [] := by
        intro hnil
        have hin : bar.bucketNs ∈ trades.map (tradeBucket intervalS) := (h.buckets _).1 (by rw [hall]; simp)
        rw [← hmem, hnil] at hin
        cases hin
      obtain ⟨front, last, hsplit⟩ := (List.eq_nil_or_concat' _).resolve_left hne
      rw [hsplit, List.dropLast_concat] at heq
      rw [hsplit, List.map_append, List.pairwise_append] at hsort
      -- every closed bar is before the tape's last one, so that one is the open one
      have hlt : ∀ b ∈ (closedBars intervalS trades).map (·.bucketNs), b < last.bucketNs := by
        intro b hb
        refine hsort.2.2 b ?_ _ (by simp)
        rw [← heq, List.map_map]
        exact hb
      have hlast : last.bucketNs = bar.bucketNs := by
        have hin : last.bucketNs ∈ trades.map (tradeBucket intervalS) := (hmem _).1 (by rw [hsplit]; simp)
        rw [← h.buckets, hall, List.map_append, List.mem_append] at hin
        rcases hin with hin | hin
        · exact absurd (hlt _ hin) (lt_irrefl _)
        · exact List.mem_singleton.1 hin
      rw [hall, List.map_append, List.pairwise_append]
      refine ⟨hinc, List.pairwise_singleton _ _, fun a ha b hb => ?_⟩
      rw [List.map_singleton, List.mem_singleton] at hb
      rw [hb, ← hlast]
      exact hlt a ha
    · intro hsort
      have htape : loadBarsFromReplay intervalS venue symbol trades = (closedBars intervalS trades ++ [bar]).map
          BarRow.ofBar := by
        rw [loadBarsFromReplay, h.same hsort, insertionSort_bars hsort, hall]
      rw [hall, List.map_append, List.pairwise_append] at hsort
      refine ⟨hsort.1, ?_⟩
      rw [htape, List.map_append, List.map_singleton, List.dropLast_concat]

/-- A trade of `UPBIT:KRW-BTC`, some seconds into the tape. -/
def tradeAt (second : UInt64) (price : ℤ) : Trade ℤ :=
  ⟨"UPBIT", "KRW-BTC", second * 1000000000, second * 1000000000, price, 1, 1⟩

/-- Four trades in order, in bars of a minute. -/
theorem live_bars_eq_tape_ordered :
    LiveIsTape 60 "UPBIT" "KRW-BTC" [tradeAt 10 100, tradeAt 50 99, tradeAt 61 101, tradeAt 130 102] :=
  (live_bars_eq_tape_iff (by unfold OfSymbol; decide +kernel)).2 (by decide +kernel)

/-- A trade of the first minute after one of the second: that minute is closed twice. -/
theorem live_bars_late_trade :
    (closedBars 60 [tradeAt 10 100, tradeAt 61 101, tradeAt 50 99, tradeAt 62 102]).map (·.bucketNs) =
      [0, 60000000000, 0] ∧
    ¬ LiveIsTape 60 "UPBIT" "KRW-BTC" [tradeAt 10 100, tradeAt 61 101, tradeAt 50 99, tradeAt 62 102] := by
  unfold LiveIsTape
  decide +kernel

end Strategy

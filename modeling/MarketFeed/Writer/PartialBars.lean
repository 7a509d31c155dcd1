import Mathlib.Algebra.Order.Field.Rat
import Mathlib.Tactic.NormNum
import MarketFeed.Storage.Cuts
import MarketFeed.Writer.Messages
/-!
# A bar that is stored in parts (models.py:258-270; storage/db.py:365-373, :805-811)

The trades of a bucket come in parts, each part makes a bar, and the bars are upserted one after another. The
upsert does to the columns what `Bar.update` does to the fields (`Bar.join`): open stays, high and low are the
extremes, close is the last one's, volume, notional and tick count add up. Only `vwap` is taken from the last
part as it is, although notional and volume are there to divide; so the stored row is the row of the whole bar
exactly when the mean price of the last part is that of all trades (`stored_bar_iff`).
-/

namespace Writer

open Storage Keyed

variable {F : Type} [CommRing F] [LinearOrder F]

/-! ## Parts of a bar -/

/-- The bar of some trades. -/
def barOf (k : BarKey) (trades : List (Trade F)) : Bar F := trades.foldl Bar.update (Bar.new k)

/-- The bar of what `b` has, followed by what `c` has. -/
def Bar.join (b c : Bar F) : Bar F :=
  { b with
    high := max b.high c.high
    low := min b.low c.low
    close := c.close
    volume := b.volume + c.volume
    notional := b.notional + c.notional
    tickCount := b.tickCount + c.tickCount }

theorem update_tickCount (b : Bar F) (t : Trade F) : (b.update t).tickCount = b.tickCount + 1 := rfl

theorem barOf_concat (k : BarKey) (trades : List (Trade F)) (t : Trade F) :
    barOf k (trades ++ [t]) = (barOf k trades).update t := by
  rw [barOf, List.foldl_append]
  rfl

theorem barOf_tickCount (k : BarKey) (trades : List (Trade F)) : (barOf k trades).tickCount = trades.length := by
  induction trades using List.reverseRecOn with
  | nil => rfl
  | append_singleton trades t ih => rw [barOf_concat, update_tickCount, ih, List.length_append, List.length_singleton]

theorem update_join {b c : Bar F} (hb : b.tickCount ≠ 0) (hc : c.tickCount ≠ 0) (t : Trade F) :
    (b.join c).update t = b.join (c.update t) := by
  have hbc : (b.join c).tickCount ≠ 0 := by
    change b.tickCount + c.tickCount ≠ 0
    exact fun h => hb (Nat.eq_zero_of_add_eq_zero_right h)
  simp only [Bar.update, if_neg hbc, if_neg hc]
  simp only [Bar.join, max_assoc, min_assoc, add_assoc]

theorem update_eq_join {b : Bar F} (hb : b.tickCount ≠ 0) (t : Trade F) : b.update t = b.join (barOf b.key [t]) := by
  simp [Bar.update, Bar.join, barOf, Bar.new, hb]

/-- The bar of two parts is the two bars joined. -/
theorem barOf_append (k : BarKey) {p q : List (Trade F)} (hp : p ≠ []) (hq : q ≠ []) :
    barOf k (p ++ q) = (barOf k p).join (barOf k q) := by
  have hpt : (barOf k p).tickCount ≠ 0 := by
    rw [barOf_tickCount]
    exact mt List.length_eq_zero_iff.1 hp
  induction q using List.reverseRecOn with
  | nil => exact absurd rfl hq
  | append_singleton q t ih =>
    rw [← List.append_assoc, barOf_concat]
    by_cases hq' : q = []
    · subst hq'
      rw [List.append_nil, update_eq_join hpt]
      rfl
    · have hqt : (barOf k q).tickCount ≠ 0 := by
        rw [barOf_tickCount]
        exact mt List.length_eq_zero_iff.1 hq'
      rw [ih hq', update_join hpt hqt, barOf_concat]

/-! ## What the trades say -/

/-- Σ price · qty. -/
def notionalOf (trades : List (Trade F)) : F := trades.foldl (fun x t => x + t.price * t.qty) 0

/-- Σ qty. -/
def volumeOf (trades : List (Trade F)) : F := trades.foldl (fun x t => x + t.qty) 0

variable [Div F]

/-- Total notional by total volume, and the last price where there is no volume. -/
def meanPrice (trades : List (Trade F)) : F :=
  if volumeOf trades ≠ 0 then notionalOf trades / volumeOf trades else (trades.getLast?.map Trade.price).getD 0

omit [Div F] in
theorem barOf_totals (k : BarKey) (trades : List (Trade F)) :
    (barOf k trades).notional = notionalOf trades ∧ (barOf k trades).volume = volumeOf trades ∧
      (barOf k trades).close = (trades.getLast?.map Trade.price).getD 0 := by
  induction trades using List.reverseRecOn with
  | nil => exact ⟨rfl, rfl, rfl⟩
  | append_singleton trades t ih =>
    obtain ⟨hn, hv, -⟩ := ih
    rw [barOf_concat]
    refine ⟨?_, ?_, by simp [Bar.update]⟩
    · rw [notionalOf, List.foldl_append, ← notionalOf, ← hn]
      rfl
    · rw [volumeOf, List.foldl_append, ← volumeOf, ← hv]
      rfl

theorem barOf_vwap (k : BarKey) (trades : List (Trade F)) : (barOf k trades).vwap = meanPrice trades := by
  obtain ⟨hn, hv, hc⟩ := barOf_totals k trades
  rw [Bar.vwap, meanPrice, hn, hv, hc]

/-! ## What is stored -/

/-- The upsert joins, and takes the new row's vwap. -/
theorem merge_row (b c : Bar F) (v : F) :
    BarRow.merge { b.row with vwap := v } c.row = { (b.join c).row with vwap := c.vwap } := by
  simp [BarRow.merge, Bar.row, Bar.join]

theorem foldl_rows (k : BarKey) {parts : List (List (Trade F))} (hfilled : ∀ p ∈ parts, p ≠ []) (hne : parts ≠ []) :
    (parts.map fun p => (barOf k p).row).foldl (put BarRow.merge) none =
      some { (barOf k parts.flatten).row with vwap := meanPrice (parts.getLast hne) } := by
  induction parts using List.reverseRecOn with
  | nil => exact absurd rfl hne
  | append_singleton parts p ih =>
    rw [List.map_append, List.foldl_append, List.flatten_append, List.flatten_singleton,
      List.getLast_append_singleton, ← barOf_vwap k p]
    by_cases hparts : parts = []
    · subst hparts
      rfl
    · have hp := hfilled p (List.mem_append_right _ (List.mem_singleton_self p))
      have hflat : parts.flatten ≠ [] := by
        intro hnil
        obtain ⟨q, hq⟩ := List.exists_mem_of_ne_nil parts hparts
        exact hfilled q (List.mem_append_left _ hq) (List.flatten_eq_nil_iff.1 hnil q hq)
      rw [ih (fun q hq => hfilled q (List.mem_append_left _ hq)) hparts, barOf_append k hflat hp,
        ← merge_row _ _ (meanPrice (parts.getLast hparts))]
      rfl

omit [Div F] in
theorem barMerge_key (o r : BarRow F) (h : o.key = r.key) : (o.merge r).key = r.key := h

/-- A run that stores a bar in parts. -/
structure PartialBars (F : Type) [CommRing F] [LinearOrder F] [Div F] (k : BarKey) where
  parts : List (List (Trade F))
  filled : ∀ p ∈ parts, p ≠ []
  nonempty : parts ≠ []
  batches : List (StorageBatch F)
  before : Tables F
  after : Tables F
  /-- No row of the bar is there yet. -/
  new : lookup BarRow.key (storedKey k) before.bars = none
  writes : Writes before batches after
  /-- The rows of this bar that are upserted, in order. -/
  rows : ((batches.flatMap (·.bars)).filter fun r => decide (r.key = storedKey k)) = parts.map fun p => (barOf k p).row

variable {k : BarKey}

/-- All columns but vwap are those of the whole bar. -/
theorem PartialBars.stored (s : PartialBars F k) :
    lookup BarRow.key (storedKey k) s.after.bars =
      some { (barOf k s.parts.flatten).row with vwap := meanPrice (s.parts.getLast s.nonempty) } := by
  rw [s.writes.bars, lookup_foldl_upsert barMerge_key, s.rows, s.new, foldl_rows k s.filled s.nonempty]

/-- **The stored row is the row of the whole bar exactly when the mean price of the last part is that of all trades.**
-/
theorem stored_bar_iff (s : PartialBars F k) :
    lookup BarRow.key (storedKey k) s.after.bars = some (barOf k s.parts.flatten).row ↔
      meanPrice (s.parts.getLast s.nonempty) = meanPrice s.parts.flatten := by
  rw [s.stored, ← barOf_vwap k s.parts.flatten]
  constructor
  · intro h
    exact congrArg BarRow.vwap (Option.some_injective _ h)
  · intro h
    rw [h]
    rfl

def sampleKey : BarKey := ("UPBIT", "KRW-BTC", 0)

def sampleTick (price : ℚ) : Trade ℚ := ⟨"UPBIT", "KRW-BTC", 1, 1, price, 1, 1⟩

def barBatch (id : String) (trades : List (Trade ℚ)) : StorageBatch ℚ :=
  ⟨id, "d", [], [], [], [(barOf sampleKey trades).row]⟩

/-- One unit at 100 and one at 200, stored in two parts: the stored vwap is 200, that of the bar 150. -/
theorem vwap_of_last_part : ∃ s : PartialBars ℚ sampleKey, s.parts = [[sampleTick 100], [sampleTick 200]] ∧
    (lookup BarRow.key (storedKey sampleKey) s.after.bars).map BarRow.vwap = some 200 ∧
    (barOf sampleKey s.parts.flatten).row.vwap = 150 := by
  have hfresh (b : StorageBatch ℚ) : Fresh Tables.empty b := fun _ h => absurd h (by simp [Tables.empty])
  have hfresh' : Fresh (Tables.empty.store (barBatch "a" [sampleTick 100]) "t") (barBatch "b" [sampleTick 200]) := by
    unfold Fresh
    decide
  obtain ⟨s, hs⟩ : ∃ s : PartialBars ℚ sampleKey, s.parts = [[sampleTick 100], [sampleTick 200]] := by
    refine ⟨⟨[[sampleTick 100], [sampleTick 200]], by simp, by simp, _, _, _, rfl,
      .store (hfresh _) "t" ?_ (.store hfresh' "u" ?_ (.nil _)), rfl⟩, rfl⟩
    all_goals decide
  refine ⟨s, hs, ?_, ?_⟩
  · rw [s.stored]
    simp [hs, meanPrice, volumeOf, notionalOf, sampleTick]
  · change (barOf sampleKey s.parts.flatten).vwap = 150
    rw [barOf_vwap, hs]
    norm_num [meanPrice, volumeOf, notionalOf, sampleTick]

end Writer

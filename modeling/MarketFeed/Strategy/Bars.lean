import Mathlib.Data.List.Sort
import Mathlib.Logic.Function.Basic
import MarketFeed.Writer.Messages
/-!
# Bars of the bus and bars of the tape (services/strategy.py:80-92, quant/backtest.py:285-311)

The engine keeps one open bar of a symbol and closes it at the first trade of another bucket. The replay
keeps a dict of bars by bucket and sorts it at the end, so a trade that comes late still reaches its bar.
`F` is `float`, with its operations and none of their laws.

| here | there |
| --- | --- |
| `Engine.bars` | `_bars`, the open bar of each key |
| `Engine.closed` | the arguments `_close_bar` was called with, in order |
| `tapeUpdate` | one trade into the dict `bars` of `load_bars_from_replay`, which keeps its insertion order |
-/

namespace Strategy

open Writer

variable {F : Type}

/-- `BarRow`. -/
structure BarRow (F : Type) where
  bucketNs : ℕ
  openPrice : F
  high : F
  low : F
  close : F
  volume : F
  tickCount : ℕ
  deriving DecidableEq

/-- The fields of a bar that a `BarRow` has. -/
def BarRow.ofBar (b : Bar F) : BarRow F := ⟨b.bucketNs, b.openPrice, b.high, b.low, b.close, b.volume, b.tickCount⟩

structure Engine (F : Type) where
  bars : String → Option (Bar F)
  closed : List (String × Bar F)

def Engine.start : Engine F := ⟨fun _ => none, []⟩

def symbolKey (venue symbol : String) : String := venue ++ ":" ++ symbol

def tradeBucket (intervalS : ℕ) (t : Trade F) : ℕ := bucketOf intervalS t.tsEventNs.toNat

section Code

variable [Zero F] [Add F] [Mul F] [Max F] [Min F]

/-- `_on_trade`. -/
def Engine.onTrade (intervalS : ℕ) (e : Engine F) (t : Trade F) : Engine F :=
  let key := symbolKey t.venue t.symbol
  let bucket := tradeBucket intervalS t
  let fresh := (Bar.new (t.venue, t.symbol, bucket)).update t
  match e.bars key with
  | none => ⟨Function.update e.bars key (some fresh), e.closed⟩
  | some bar =>
    if bar.bucketNs ≠ bucket then ⟨Function.update e.bars key (some fresh), e.closed ++ [(key, bar)]⟩
    else ⟨Function.update e.bars key (some (bar.update t)), e.closed⟩

def liveRun (intervalS : ℕ) (trades : List (Trade F)) : Engine F := trades.foldl (Engine.onTrade intervalS) Engine.start

/-- The bars closed on the way through `trades`. -/
def closedBars (intervalS : ℕ) (trades : List (Trade F)) : List (Bar F) :=
  (liveRun intervalS trades).closed.map Prod.snd

def tapeUpdate (venue symbol : String) (bucket : ℕ) (t : Trade F) : List (Bar F) → List (Bar F)
  | [] => [(Bar.new (venue, symbol, bucket)).update t]
  | bar :: bars => if bar.bucketNs = bucket then bar.update t :: bars else bar :: tapeUpdate venue symbol bucket t bars

/-- The dict after the trades of the tape. -/
def tapeBars (intervalS : ℕ) (venue symbol : String) (tape : List (Trade F)) : List (Bar F) :=
  (tape.filter fun t => t.venue == venue && t.symbol == symbol).foldl
    (fun bars t => tapeUpdate venue symbol (tradeBucket intervalS t) t bars) []

/-- `load_bars_from_replay`. -/
def loadBarsFromReplay (intervalS : ℕ) (venue symbol : String) (tape : List (Trade F)) : List (BarRow F) :=
  ((tapeBars intervalS venue symbol tape).insertionSort fun a b => a.bucketNs ≤ b.bucketNs).map BarRow.ofBar

end Code

/-! ## One trade -/

section Trade

variable [Zero F] [Add F] [Mul F] [Max F] [Min F] {intervalS : ℕ} {venue symbol : String}

theorem tapeUpdate_buckets (bucket : ℕ) (t : Trade F) (bars : List (Bar F)) :
    (tapeUpdate venue symbol bucket t bars).map (·.bucketNs) =
      if bucket ∈ bars.map (·.bucketNs) then bars.map (·.bucketNs) else bars.map (·.bucketNs) ++ [bucket] := by
  induction bars with
  | nil => rfl
  | cons bar bars ih =>
    rw [tapeUpdate]
    by_cases hb : bar.bucketNs = bucket
    · rw [if_pos hb, if_pos (by simp [hb])]
      rfl
    · rw [if_neg hb, List.map_cons, ih]
      by_cases hmem : bucket ∈ bars.map (·.bucketNs)
      · have hmem' : bucket ∈ (bar :: bars).map (·.bucketNs) := List.mem_cons_of_mem _ hmem
        rw [if_pos hmem, if_pos hmem', List.map_cons]
      · have hmem' : bucket ∉ (bar :: bars).map (·.bucketNs) := by
          rw [List.map_cons, List.mem_cons, not_or]
          exact ⟨fun h => hb h.symm, hmem⟩
        rw [if_neg hmem, if_neg hmem', List.map_cons, List.cons_append]

theorem tapeUpdate_append_of_notMem {bucket : ℕ} {bars : List (Bar F)} (h : ∀ b ∈ bars, b.bucketNs ≠ bucket)
    (t : Trade F)
    (more : List (Bar F)) : tapeUpdate venue symbol bucket t (bars ++ more) = bars ++ tapeUpdate venue symbol bucket
      t more := by
  induction bars with
  | nil => rfl
  | cons bar bars ih =>
    rw [List.cons_append, tapeUpdate, if_neg (h bar List.mem_cons_self),
      ih fun b hb => h b (List.mem_cons_of_mem bar hb),
      List.cons_append]

/-- The bars of a symbol, the open one last. -/
def Engine.all (e : Engine F) (key : String) : List (Bar F) := e.closed.map Prod.snd ++ (e.bars key).toList

theorem liveRun_snoc (trades : List (Trade F)) (t : Trade F) :
    liveRun intervalS (trades ++ [t]) = (liveRun intervalS trades).onTrade intervalS t := by
  rw [liveRun, List.foldl_append]
  rfl

/-- A trade goes to the open bar of its bucket, or closes the open bar and opens the next. -/
theorem onTrade_all {t : Trade F} (hv : t.venue = venue) (hs : t.symbol = symbol) (e : Engine F) :
    (∃ bar, e.bars (symbolKey venue symbol) = some bar ∧ bar.bucketNs = tradeBucket intervalS t ∧
      (e.onTrade intervalS t).closed = e.closed ∧
      (e.onTrade intervalS t).bars (symbolKey venue symbol) = some (bar.update t)) ∨
    ((∀ bar, e.bars (symbolKey venue symbol) = some bar → bar.bucketNs ≠ tradeBucket intervalS t) ∧
      (e.onTrade intervalS t).closed.map Prod.snd = e.all (symbolKey venue symbol) ∧
      (e.onTrade intervalS t).bars (symbolKey venue symbol) =
        some ((Bar.new (venue, symbol, tradeBucket intervalS t)).update t)) := by
  subst hv hs
  unfold Engine.onTrade Engine.all
  cases hbar : e.bars (symbolKey t.venue t.symbol) with
  | none =>
    right
    refine ⟨fun bar h => (by cases h), ?_⟩
    simp [hbar]
  | some bar =>
    by_cases hb : bar.bucketNs = tradeBucket intervalS t
    · left
      refine ⟨bar, rfl, hb, ?_⟩
      simp [hbar, hb]
    · right
      refine ⟨fun bar' h => (by cases h; exact hb), ?_⟩
      simp [hbar, hb]

end Trade

end Strategy

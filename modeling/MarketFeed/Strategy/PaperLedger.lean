import Mathlib.Algebra.BigOperators.Group.List.Basic
import Mathlib.Data.List.Sort
import Mathlib.Data.Prod.Lex
import Mathlib.Data.String.Basic
import MarketFeed.Gateway.EntitlementFile
import MarketFeed.Lib.Lists
import MarketFeed.Lib.Text
import MarketFeed.Lib.Upsert
import MarketFeed.Strategy.Parity
import MarketFeed.Lib.Binary64
/-!
# The paper ledger (quant/paper_ledger.py:72-222)

Each signal that was sent out is filled at the open of the next bar, if there is one in time. It goes one of six ways:
its venue or its symbol excludes it, its direction is ignored, no bar fills it, it opens a position, or it closes one.
The report has an entry for each strategy that has closed a trade, and for no other: what a strategy without one has
sent is counted by nobody (`left_out`), and everything else by one (`ledger_accounts`).

| here | there |
| --- | --- |
| `Bars` | `Bars.ts` and `Bars.op` in one, filled in the order of the query |
| `Ledger` | `open_pos`, `trades`, `unfilled`, `ignored`, `ref_gap`, `skipped_venue`, `skipped_blank` |
| `Ledger.fill` | what follows `fill_ts, px = got`; none after an exception |
| `Booking` | not in the source: what a signal may change of the positions and the trades |
| `Ledger.closed` | not in the source: the closed trades of a strategy, in the ledger |
| `sum` | `sum()` of floats, which compensates from Python 3.12 on |

The texts of the report that never change, and the time it was made, are left out.
-/

namespace Strategy.Paper

open Keyed PyFloat

variable {F : Type}

structure Signal (F : Type) where
  ts : ℤ
  venue : String
  symbol : String
  strategy : String
  action : ℤ
  refPrice : Option F

/-- A row of `bars_1m`. -/
structure Row (F : Type) where
  venue : String
  symbol : String
  bucket : ℤ
  openPrice : Option F

def BAR_US : ℤ := 60 * 1000000

def FILL_WINDOW_US : ℤ := 15 * BAR_US

def BUY : ℤ := 1

def SELL : ℤ := -1

def NON_TRADABLE_VENUES : List String := ["KRX-IDX"]

abbrev Bars (F : Type) := List ((String × String) × List (ℤ × F))

structure Trade (F : Type) where
  venue : String
  symbol : String
  entryTs : ℤ
  exitTs : ℤ
  entry : F
  exit : F
  ret : F
  holdMin : F

/-- Venue, symbol and strategy. -/
abbrev PKey := String × String × String

structure Ledger (F : Type) where
  openPos : List (PKey × ℤ × F)
  trades : List (String × List (Trade F))
  unfilled : List (String × ℕ)
  ignored : List (String × ℕ)
  refGap : List F
  skippedVenue : ℕ
  skippedBlank : ℕ

structure StrategyReport (F : Type) where
  trades : ℕ
  winRate : F
  avgRet : F
  best : F
  worst : F
  pnlUnits : F
  mddUnits : F
  avgHoldMin : F
  unfilledSignals : ℕ
  ignoredSignals : ℕ
  openAtEnd : ℕ

structure RefVsFill (F : Type) where
  n : ℕ
  medianBp : F
  p95Bp : F

structure Report (F : Type) where
  feeRate : F
  slippageBp : F
  signalsTotal : ℕ
  strategies : List (String × StrategyReport F)
  nonTradableVenue : ℕ
  blankSymbol : ℕ
  unfilledTotal : ℕ
  unfilledPct : F
  refVsFill : Option (RefVsFill F)

/-- `d[k] += n`. -/
def plus (o r : String × ℕ) : String × ℕ := (r.1, o.2 + r.2)

/-- `d[k].append(…)`. -/
def joined {κ α : Type} (o r : κ × List α) : κ × List α := (r.1, o.2 ++ r.2)

theorem plus_fst (o r : String × ℕ) (_ : o.1 = r.1) : (plus o r).1 = r.1 := rfl

theorem joined_fst {κ α : Type} (o r : κ × List α) (_ : o.1 = r.1) : (joined o r).1 = r.1 := rfl

namespace Signal

variable (s : Signal F)

def key : String × String := (s.venue, s.symbol)

def pkey : PKey := (s.venue, s.symbol, s.strategy)

def nonTradable : Bool := NON_TRADABLE_VENUES.contains s.venue

/-- `not symbol or not symbol.strip()`. -/
def blank : Bool := (Text.strip Gateway.pySpace s.symbol.toList).isEmpty

/-- Not excluded. -/
def counted : Bool := !s.nonTradable && !s.blank

end Signal

section Code

variable [PyFloat F]

/-- `ORDER BY venue, symbol, bucket`. -/
def ordered (rows : List (Row F)) : List (Row F) :=
  rows.insertionSort fun a b => toLex (a.venue, toLex (a.symbol, a.bucket)) ≤
    toLex (b.venue, toLex (b.symbol, b.bucket))

def load (rows : List (Row F)) (keys : List (String × String)) : Bars F :=
  (((ordered rows).filter fun r => keys.contains (r.venue, r.symbol)).map fun r =>
    ((r.venue, r.symbol), [(r.bucket, r.openPrice.getD (ofInt 0))])).foldl (upsert Prod.fst joined) []

/-- `bisect.bisect_right` of the times, which are in order. -/
def bisectRight (ts : List (ℤ × F)) (x : ℤ) : ℕ := (ts.takeWhile fun e => decide (e.1 ≤ x)).length

def nextOpen (bars : Bars F) (key : String × String) (afterUs : ℤ) : Option (ℤ × F) :=
  match lookup Prod.fst key bars with
  | none => none
  | some (_, ts) =>
    match ts[bisectRight ts afterUs]? with
    | none => none
    | some (t, px) => if FILL_WINDOW_US < t - afterUs then none else if lt (ofInt 0) px then some (t, px) else none

variable (bars : Bars F) (fee slip : F)

namespace Ledger

def fresh : Ledger F := ⟨[], [], [], [], [], 0, 0⟩

def held (l : Ledger F) (s : Signal F) : Bool := (lookup Prod.fst s.pkey l.openPos).isSome

/-- A direction that does not fit. -/
def misfit (l : Ledger F) (s : Signal F) : Bool :=
  (decide (s.action = BUY) && l.held s) || (decide (s.action = SELL) && !l.held s)

/-- `if ref: ref_gap.append((px - ref) / ref)`. -/
def addGap (l : Ledger F) (refPrice : Option F) (px : F) : Option (Ledger F) :=
  match refPrice with
  | none => some l
  | some ref => if eq ref (ofInt 0) then some l else (div (sub px ref) ref).map fun gap =>
    { l with refGap := l.refGap ++ [gap] }

def fill (l : Ledger F) (s : Signal F) (fillTs : ℤ) (px : F) : Option (Ledger F) := do
  let l ← l.addGap s.refPrice px
  if s.action = BUY then
    let entry := mul (mul px (add (ofInt 1) slip)) (add (ofInt 1) fee)
    some { l with openPos := upsert Prod.fst (fun _ r => r) l.openPos (s.pkey, fillTs, entry) }
  else
    let (_, entryTs, entry) ← lookup Prod.fst s.pkey l.openPos
    let exitPx := mul (mul px (sub (ofInt 1) slip)) (sub (ofInt 1) fee)
    let ratio ← div exitPx entry
    let trade : Trade F :=
      ⟨s.venue, s.symbol, entryTs, fillTs, entry, exitPx, sub ratio (ofInt 1),
        divNat (divNat (ofInt (fillTs - entryTs)) 1000000) 60⟩
    some { l with
      openPos := erase Prod.fst s.pkey l.openPos
      trades := upsert Prod.fst joined l.trades (s.strategy, [trade]) }

/-- One turn of the loop. -/
def step (l : Ledger F) (s : Signal F) : Option (Ledger F) :=
  if s.nonTradable then some { l with skippedVenue := l.skippedVenue + 1 }
  else if s.blank then some { l with skippedBlank := l.skippedBlank + 1 }
  else if l.misfit s then some { l with ignored := upsert Prod.fst plus l.ignored (s.strategy, 1) }
  else
    match nextOpen bars s.key s.ts with
    | none => some { l with unfilled := upsert Prod.fst plus l.unfilled (s.strategy, 1) }
    | some (fillTs, px) => l.fill fee slip s fillTs px

def loop : Ledger F → List (Signal F) → Option (Ledger F)
  | l, [] => some l
  | l, s :: sigs => (l.step bars fee slip s).bind fun l' => l'.loop sigs

/-- The closed trades of a strategy. -/
def closed (l : Ledger F) (strat : String) : ℕ := amount Prod.fst (fun e => e.2.length) strat l.trades

end Ledger

/-! ## The report -/

/-- `max(xs)`, of some. -/
def maxOf : List F → F
  | [] => ofInt 0
  | x :: xs => xs.foldl pyMax x

def minOf : List F → F
  | [] => ofInt 0
  | x :: xs => xs.foldl (fun a b => if lt b a then b else a) x

/-- `cum` and `mdd` after the loop over `by_exit`. -/
def drawdown (trades : List (Trade F)) : F × F :=
  let (cum, _, mdd) := trades.foldl (fun (cum, peak, mdd) t =>
    let cum := add cum t.ret
    let peak := pyMax peak cum
    (cum, peak, pyMax mdd (sub peak cum))) (ofInt 0, ofInt 0, ofInt 0)
  (cum, mdd)

variable (sum : List F → F)

def Ledger.strategyReport (l : Ledger F) (strat : String) (tl : List (Trade F)) : StrategyReport F :=
  let rets := tl.map Trade.ret
  let wins := rets.filter fun r => lt (ofInt 0) r
  let (cum, mdd) := drawdown (tl.insertionSort fun a b => a.exitTs ≤ b.exitTs)
  { trades := tl.length
    winRate := if rets.isEmpty then ofInt 0 else divNat (ofInt wins.length) rets.length
    avgRet := if rets.isEmpty then ofInt 0 else divNat (sum rets) rets.length
    best := if rets.isEmpty then ofInt 0 else maxOf rets
    worst := if rets.isEmpty then ofInt 0 else minOf rets
    pnlUnits := cum
    mddUnits := mdd
    avgHoldMin := if tl.isEmpty then ofInt 0 else divNat (sum (tl.map Trade.holdMin)) tl.length
    unfilledSignals := amount Prod.fst Prod.snd strat l.unfilled
    ignoredSignals := amount Prod.fst Prod.snd strat l.ignored
    openAtEnd := l.openPos.countP fun k => decide (k.1.2.2 = strat) }

/-- `int(n * 0.95)`. -/
def p95Index (n : ℕ) : ℕ := ⌊Double.binary64 (n * Double.binary64 (19 / 20))⌋.toNat

def refVsFill (refGap : List F) : Option (RefVsFill F) :=
  if refGap.isEmpty then none
  else
    let sorted := refGap.insertionSort fun a b => le a b = true
    some ⟨sorted.length, mul (sorted.getD (sorted.length / 2) (ofInt 0)) (ofInt 10000),
      mul (sorted.getD (p95Index sorted.length) (ofInt 0)) (ofInt 10000)⟩

def Ledger.report (l : Ledger F) (slipBp : F) (signalsTotal : ℕ) : Report F :=
  let unfilledTotal := (l.unfilled.map Prod.snd).sum
  { feeRate := fee
    slippageBp := slipBp
    signalsTotal := signalsTotal
    strategies := (l.trades.insertionSort fun a b => a.1 ≤ b.1).map fun (strat, tl) =>
      (strat, l.strategyReport sum strat tl)
    nonTradableVenue := l.skippedVenue
    blankSymbol := l.skippedBlank
    unfilledTotal := unfilledTotal
    unfilledPct := if signalsTotal = 0 then ofInt 0 else divNat (ofInt unfilledTotal) signalsTotal
    refVsFill := refVsFill l.refGap }

/-- The bars of the signals that are not excluded. -/
def barsFor (rows : List (Row F)) (sigs : List (Signal F)) : Bars F :=
  load rows ((sigs.filter Signal.counted).map Signal.key)

def run (rows : List (Row F)) (sigs : List (Signal F)) (slipBp : F) : Option (Report F) :=
  (Ledger.fresh.loop (barsFor rows sigs) fee (divNat slipBp 10000) sigs).map fun l =>
    l.report fee sum slipBp sigs.length

end Code

variable [PyFloat F]

/-! ## The bar a signal is filled at -/

/-- What is under a key comes from rows of that key. -/
theorem mem_foldl_joined {κ α : Type} [DecidableEq κ] {rs acc : List (κ × List α)} {k : κ} {e : α}
    (h : ∃ r, lookup Prod.fst k (rs.foldl (upsert Prod.fst joined) acc) = some r ∧ e ∈ r.2) :
    (∃ r, lookup Prod.fst k acc = some r ∧ e ∈ r.2) ∨ ∃ r ∈ rs, r.1 = k ∧ e ∈ r.2 := by
  induction rs generalizing acc with
  | nil => exact .inl h
  | cons x rs ih =>
    rcases ih h with ⟨r, hr, he⟩ | ⟨r, hr, hk, he⟩
    · rw [lookup_upsert joined_fst] at hr
      split at hr
      · rename_i hk
        cases hold : lookup Prod.fst k acc with
        | none =>
          rw [hold] at hr
          cases hr
          exact .inr ⟨x, List.mem_cons_self, hk, he⟩
        | some o =>
          rw [hold] at hr
          cases hr
          rcases List.mem_append.1 he with he | he
          · exact .inl ⟨o, rfl, he⟩
          · exact .inr ⟨x, List.mem_cons_self, hk, he⟩
      · exact .inl ⟨r, hr, he⟩
    · exact .inr ⟨r, List.mem_cons_of_mem x hr, hk, he⟩

omit [PyFloat F] in
theorem bisectRight_spec {ts : List (ℤ × F)} {x : ℤ} {e : ℤ × F} (h : ts[bisectRight ts x]? = some e) : x < e.1 ∧
    e ∈ ts := by
  have hmem := List.mem_of_getElem? h
  have hdrop : ts.drop (bisectRight ts x) = ts.dropWhile fun e => decide (e.1 ≤ x) :=
    calc ts.drop (bisectRight ts x)
        = ((ts.takeWhile fun e => decide (e.1 ≤ x)) ++ ts.dropWhile fun e => decide (e.1 ≤ x)).drop
          (bisectRight ts x) := by
          rw [List.takeWhile_append_dropWhile]
      _ = ts.dropWhile fun e => decide (e.1 ≤ x) := List.drop_left
  have hhead : (ts.dropWhile fun e => decide (e.1 ≤ x)).head? = some e := by rw [← hdrop, List.head?_drop, h]
  have hnot := List.head?_dropWhile_not (fun e : ℤ × F => decide (e.1 ≤ x)) ts
  rw [hhead] at hnot
  exact ⟨by simpa using hnot, hmem⟩

/-- A bar that fills a signal: it starts after it, in the window, and is one of the history. -/
def Fills (rows : List (Row F)) (s : Signal F) (fill : ℤ × F) : Prop :=
  s.ts < fill.1 ∧ fill.1 - s.ts ≤ FILL_WINDOW_US ∧
    ∃ r ∈ rows, r.venue = s.venue ∧ r.symbol = s.symbol ∧ r.bucket = fill.1 ∧ r.openPrice.getD (ofInt 0) = fill.2

theorem nextOpen_spec {rows : List (Row F)} {keys : List (String × String)} {s : Signal F} {fill : ℤ × F}
    (h : nextOpen (load rows keys) s.key s.ts = some fill) : Fills rows s fill := by
  unfold nextOpen at h
  split at h
  · cases h
  · rename_i k ts hlook
    split at h
    · cases h
    · rename_i t px hat
      obtain ⟨hafter, hmem⟩ := bisectRight_spec hat
      split at h
      · cases h
      · rename_i hwindow
        split at h
        · cases h
          refine ⟨hafter, Int.not_lt.1 hwindow, ?_⟩
          rcases mem_foldl_joined ⟨_, hlook, hmem⟩ with ⟨r, hr, -⟩ | ⟨r, hr, hk, he⟩
          · cases hr
          · obtain ⟨row, hrow, rfl⟩ := List.mem_map.1 hr
            have hin : row ∈ rows := (List.perm_insertionSort _ rows).mem_iff.1 (List.mem_filter.1 hrow).1
            rw [List.mem_singleton, Prod.mk.injEq] at he
            rw [Signal.key, Prod.mk.injEq] at hk
            exact ⟨row, hin, hk.1, hk.2, he.1.symm, he.2.symm⟩
        · cases h

/-- What a unit costs that is bought at `px`. -/
def costOf (fee slip px : F) : F := mul (mul px (add (ofInt 1) slip)) (add (ofInt 1) fee)

/-- What a unit brings that is sold at `px`. -/
def proceedsOf (fee slip px : F) : F := mul (mul px (sub (ofInt 1) slip)) (sub (ofInt 1) fee)

/-- What signal `s` may make of the positions and the trades: nothing, a position or a trade, bought and sold at a bar
that fills `s`. -/
inductive Booking (rows : List (Row F)) (fee slip : F) (l : Ledger F) (s : Signal F) (l' : Ledger F) : Prop
  | nothing (hopen : l'.openPos = l.openPos) (htrades : l'.trades = l.trades)
  | opens (t : ℤ) (px : F) (hbuy : s.action = BUY) (hfill : Fills rows s (t, px))
      (hopen : l'.openPos = upsert Prod.fst (fun _ r => r) l.openPos (s.pkey, t, costOf fee slip px))
      (htrades : l'.trades = l.trades)
  | closes (t : ℤ) (px : F) (hsell : s.action ≠ BUY) (hfill : Fills rows s (t, px)) (entryTs : ℤ)
      (entry ret holdMin : F)
      (hheld : lookup Prod.fst s.pkey l.openPos = some (s.pkey, entryTs, entry))
      (hopen : l'.openPos = erase Prod.fst s.pkey l.openPos)
      (htrades : l'.trades = upsert Prod.fst joined l.trades
        (s.strategy, [⟨s.venue, s.symbol, entryTs, t, entry, proceedsOf fee slip px, ret, holdMin⟩]))

/-! ## One signal -/

variable {bars : Bars F} {fee slip : F}

theorem fill_cases {l l' : Ledger F} {s : Signal F} {t : ℤ} {px : F} (h : l.fill fee slip s t px = some l') :
    ∃ gaps,
      (s.action = BUY ∧
          l' = { l with
            refGap := gaps
            openPos := upsert Prod.fst (fun _ r => r) l.openPos (s.pkey, t, costOf fee slip px) }) ∨
        (s.action ≠ BUY ∧ ∃ entryTs entry ret holdMin,
          lookup Prod.fst s.pkey l.openPos = some (s.pkey, entryTs, entry) ∧
          l' = { l with
            refGap := gaps
            openPos := erase Prod.fst s.pkey l.openPos
            trades := upsert Prod.fst joined l.trades
              (s.strategy, [⟨s.venue, s.symbol, entryTs, t, entry, proceedsOf fee slip px, ret, holdMin⟩]) }) := by
  obtain ⟨mid, hgap, h⟩ := Option.bind_eq_some_iff.1 h
  have hmid : ∃ gaps, mid = { l with refGap := gaps } := by
    unfold Ledger.addGap at hgap
    split at hgap
    · cases hgap
      exact ⟨_, rfl⟩
    · split at hgap
      · cases hgap
        exact ⟨_, rfl⟩
      · obtain ⟨gap, -, rfl⟩ := Option.map_eq_some_iff.1 hgap
        exact ⟨_, rfl⟩
  obtain ⟨gaps, rfl⟩ := hmid
  refine ⟨gaps, ?_⟩
  split at h
  · rename_i hbuy
    cases h
    exact .inl ⟨hbuy, rfl⟩
  · rename_i hbuy
    obtain ⟨r, hr, h⟩ := Option.bind_eq_some_iff.1 h
    obtain ⟨ratio, -, h⟩ := Option.bind_eq_some_iff.1 h
    cases h
    have hkey : r.1 = s.pkey := key_of_lookup hr
    refine .inr ⟨hbuy, r.2.1, r.2.2, _, _, ?_, rfl⟩
    rw [hr, ← hkey]

/-- The six ways of a signal. -/
theorem step_cases {l l' : Ledger F} {s : Signal F} (h : l.step bars fee slip s = some l') :
    (s.nonTradable = true ∧ l' = { l with skippedVenue := l.skippedVenue + 1 }) ∨
      (s.nonTradable = false ∧ s.blank = true ∧ l' = { l with skippedBlank := l.skippedBlank + 1 }) ∨
      (s.counted = true ∧ l' = { l with ignored := upsert Prod.fst plus l.ignored (s.strategy, 1) }) ∨
      (s.counted = true ∧ l' = { l with unfilled := upsert Prod.fst plus l.unfilled (s.strategy, 1) }) ∨
      (s.counted = true ∧ l.held s = false ∧ s.action = BUY ∧ ∃ gaps t px, nextOpen bars s.key s.ts = some (t, px) ∧
        l' = { l with
          refGap := gaps
          openPos := upsert Prod.fst (fun _ r => r) l.openPos (s.pkey, t, costOf fee slip px) }) ∨
      (s.counted = true ∧ s.action ≠ BUY ∧ ∃ gaps t px entryTs entry ret holdMin,
        nextOpen bars s.key s.ts = some (t, px) ∧
        lookup Prod.fst s.pkey l.openPos = some (s.pkey, entryTs, entry) ∧
        l' = { l with
          refGap := gaps
          openPos := erase Prod.fst s.pkey l.openPos
          trades := upsert Prod.fst joined l.trades
            (s.strategy, [⟨s.venue, s.symbol, entryTs, t, entry, proceedsOf fee slip px, ret, holdMin⟩]) }) := by
  unfold Ledger.step at h
  split at h
  · rename_i hvenue
    cases h
    exact .inl ⟨hvenue, rfl⟩
  · rename_i hvenue
    have hvenue : s.nonTradable = false := by simpa using hvenue
    split at h
    · rename_i hblank
      cases h
      exact .inr (.inl ⟨hvenue, hblank, rfl⟩)
    · rename_i hblank
      have hcounted : s.counted = true := by simp [Signal.counted, hvenue, hblank]
      split at h
      · cases h
        exact .inr (.inr (.inl ⟨hcounted, rfl⟩))
      · rename_i hfit
        split at h
        · cases h
          exact .inr (.inr (.inr (.inl ⟨hcounted, rfl⟩)))
        · rename_i t px hnext
          obtain ⟨gaps, hbuy, rfl⟩ | ⟨gaps, hbuy, entryTs, entry, ret, holdMin, hr, rfl⟩ := by
            simpa only [exists_or] using fill_cases h
          · have hheld : l.held s = false := by simpa [Ledger.misfit, hbuy, BUY, SELL] using hfit
            exact .inr (.inr (.inr (.inr (.inl ⟨hcounted, hheld, hbuy, gaps, t, px, hnext, rfl⟩))))
          · exact .inr (.inr (.inr (.inr (.inr
              ⟨hcounted, hbuy, gaps, t, px, entryTs, entry, ret, holdMin, hnext, hr, rfl⟩))))

/-- Whatever a signal changes is a fill of it. -/
theorem booking_step {rows : List (Row F)} {keys : List (String × String)} {l l' : Ledger F} {s : Signal F}
    (h : l.step (load rows keys) fee slip s = some l') : Booking rows fee slip l s l' := by
  rcases step_cases h with ⟨-, rfl⟩ | ⟨-, -, rfl⟩ | ⟨-, rfl⟩ | ⟨-, rfl⟩ | ⟨-, -, hbuy, gaps, t, px, hnext, rfl⟩ |
    ⟨-, hsell, gaps, t, px, entryTs, entry, ret, holdMin, hnext, hr, rfl⟩
  · exact .nothing rfl rfl
  · exact .nothing rfl rfl
  · exact .nothing rfl rfl
  · exact .nothing rfl rfl
  · exact .opens t px hbuy (nextOpen_spec hnext) rfl rfl
  · exact .closes t px hsell (nextOpen_spec hnext) entryTs entry ret holdMin hr rfl rfl

/-- The ledgers before and after a signal of a run. -/
theorem loop_split {l l' : Ledger F} {before after : List (Signal F)} {s : Signal F}
    (h : l.loop bars fee slip (before ++ s :: after) = some l') :
    ∃ m m', l.loop bars fee slip before = some m ∧ m.step bars fee slip s = some m' := by
  induction before generalizing l with
  | nil =>
    obtain ⟨m', hstep, -⟩ := Option.bind_eq_some_iff.1 h
    exact ⟨l, m', rfl, hstep⟩
  | cons x before ih =>
    obtain ⟨mid, hstep, hrest⟩ := Option.bind_eq_some_iff.1 h
    obtain ⟨m, m', hbefore, hs⟩ := ih hrest
    exact ⟨m, m', Option.bind_eq_some_iff.2 ⟨mid, hstep, hbefore⟩, hs⟩

/-! ## The account -/

/-- The signals of a strategy that are not excluded. -/
def tally (sigs : List (Signal F)) (strat : String) : ℕ := sigs.countP fun s => s.counted && decide (s.strategy = strat)

structure Accounted (l : Ledger F) (sigs : List (Signal F)) : Prop where
  venue : l.skippedVenue = sigs.countP Signal.nonTradable
  blank : l.skippedBlank = sigs.countP fun s => !s.nonTradable && s.blank
  each : ∀ strat, tally sigs strat =
    amount Prod.fst Prod.snd strat l.ignored + amount Prod.fst Prod.snd strat l.unfilled +
      2 * amount Prod.fst (fun e => e.2.length) strat l.trades + l.openPos.countP fun k => decide (k.1.2.2 = strat)
  openKeys : (l.openPos.map Prod.fst).Nodup
  tradeKeys : (l.trades.map Prod.fst).Nodup
  closed : ∀ e ∈ l.trades, 0 < e.2.length

omit [PyFloat F] in
theorem tally_concat (sigs : List (Signal F)) (s : Signal F) (strat : String) :
    tally (sigs ++ [s]) strat = tally sigs strat + if s.counted = true ∧ s.strategy = strat then 1 else 0 := by
  simp [tally, List.countP_append, List.countP_singleton]

omit [PyFloat F] in
theorem amount_plus (rows : List (String × ℕ)) (name strat : String) :
    amount Prod.fst Prod.snd strat (upsert Prod.fst plus rows (name, 1)) = amount Prod.fst Prod.snd strat rows +
      if name = strat then 1 else 0 :=
  amount_upsert plus_fst (fun _ _ => rfl) rows (name, 1) strat

omit [PyFloat F] in
theorem amount_joined (rows : List (String × List (Trade F))) (name strat : String) (trade : Trade F) :
    amount Prod.fst (fun e => e.2.length) strat (upsert Prod.fst joined rows (name, [trade])) =
      amount Prod.fst (fun e => e.2.length) strat rows + if name = strat then 1 else 0 :=
  amount_upsert joined_fst (fun _ _ => List.length_append) rows (name, [trade]) strat

/-- Every way of a signal adds one where it is counted. -/
theorem accounted_step {l l' : Ledger F} {sigs : List (Signal F)} {s : Signal F} (ha : Accounted l sigs)
    (h : l.step bars fee slip s = some l') : Accounted l' (sigs ++ [s]) := by
  have hkeep (hcounted : s.counted = true) : (sigs ++ [s]).countP Signal.nonTradable = sigs.countP Signal.nonTradable ∧
      ((sigs ++ [s]).countP fun s => !s.nonTradable && s.blank) = sigs.countP fun s => !s.nonTradable && s.blank := by
    simp only [Signal.counted, Bool.and_eq_true, Bool.not_eq_true'] at hcounted
    simp [List.countP_append, hcounted.1, hcounted.2]
  rcases step_cases h with ⟨hvenue, rfl⟩ | ⟨hvenue, hblank, rfl⟩ | ⟨hc, rfl⟩ | ⟨hc, rfl⟩ |
    ⟨hc, hheld, -, gaps, t, px, -, rfl⟩ | ⟨hc, -, gaps, t, px, entryTs, entry, ret, holdMin, -, hr, rfl⟩
  · refine ⟨?_, ?_, fun strat => ?_, ha.openKeys, ha.tradeKeys, ha.closed⟩
    · simp [List.countP_append, hvenue, ha.venue]
    · simp [List.countP_append, hvenue, ha.blank]
    · rw [tally_concat, ha.each, if_neg (by simp [Signal.counted, hvenue])]
      rfl
  · refine ⟨?_, ?_, fun strat => ?_, ha.openKeys, ha.tradeKeys, ha.closed⟩
    · simp [List.countP_append, hvenue, ha.venue]
    · simp [List.countP_append, hvenue, hblank, ha.blank]
    · rw [tally_concat, ha.each, if_neg (by simp [Signal.counted, hblank])]
      rfl
  · refine ⟨ha.venue.trans (hkeep hc).1.symm, ha.blank.trans (hkeep hc).2.symm, fun strat => ?_, ha.openKeys,
      ha.tradeKeys, ha.closed⟩
    rw [tally_concat, ha.each, amount_plus]
    simp only [hc, true_and]
    omega
  · refine ⟨ha.venue.trans (hkeep hc).1.symm, ha.blank.trans (hkeep hc).2.symm, fun strat => ?_, ha.openKeys,
      ha.tradeKeys, ha.closed⟩
    rw [tally_concat, ha.each, amount_plus]
    simp only [hc, true_and]
    omega
  · -- a position that was not there
    have hnone : lookup Prod.fst s.pkey l.openPos = none := by
      rw [Ledger.held] at hheld
      exact Option.not_isSome_iff_eq_none.1 (by rw [hheld]; exact Bool.false_ne_true)
    refine ⟨ha.venue.trans (hkeep hc).1.symm, ha.blank.trans (hkeep hc).2.symm, fun strat => ?_,
      nodup_upsert ha.openKeys _, ha.tradeKeys,
      ha.closed⟩
    rw [tally_concat, ha.each, upsert_of_lookup_none hnone, List.countP_append, List.countP_singleton]
    by_cases hs : s.strategy = strat
    · simp only [hc, hs, Signal.pkey, and_self, if_true, decide_true]
      omega
    · simp only [hs, Signal.pkey, and_false, if_false, decide_false, Bool.false_eq_true]
      omega
  · -- a position less, and a trade more
    refine ⟨ha.venue.trans (hkeep hc).1.symm, ha.blank.trans (hkeep hc).2.symm, fun strat => ?_,
      nodup_erase ha.openKeys _,
      nodup_upsert_merge joined_fst ha.tradeKeys _, fun e he => ?_⟩
    swap
    · rcases mem_upsert he with he | rfl | ⟨o, -, rfl⟩
      · exact ha.closed e he
      · exact Nat.zero_lt_one
      · simp [joined]
    have hopen := countP_erase ha.openKeys hr fun k => decide (k.1.2.2 = strat)
    rw [tally_concat, ha.each, amount_joined]
    dsimp only
    by_cases hs : s.strategy = strat
    · have hmine : decide ((s.pkey, entryTs, entry).1.2.2 = strat) = true := decide_eq_true hs
      rw [if_pos hmine] at hopen
      rw [if_pos ⟨hc, hs⟩, if_pos hs]
      omega
    · have hother : ¬ decide ((s.pkey, entryTs, entry).1.2.2 = strat) = true := fun h => hs (of_decide_eq_true h)
      rw [if_neg hother] at hopen
      rw [if_neg (fun h => hs h.2), if_neg hs]
      omega

theorem accounted_loop {l l' : Ledger F} {before sigs : List (Signal F)} (ha : Accounted l before)
    (h : l.loop bars fee slip sigs = some l') : Accounted l' (before ++ sigs) := by
  induction sigs generalizing l before with
  | nil =>
    cases h
    rwa [List.append_nil]
  | cons s sigs ih =>
    obtain ⟨mid, hstep, hrest⟩ := Option.bind_eq_some_iff.1 h
    have hnext := ih (accounted_step ha hstep) hrest
    rwa [List.append_assoc] at hnext

omit [PyFloat F] in
/-- Excluded one way, the other, or neither. -/
theorem countP_excluded (sigs : List (Signal F)) (p : Signal F → Bool) :
    sigs.countP Signal.nonTradable + (sigs.countP fun s => !s.nonTradable && s.blank) +
      (sigs.countP fun s => s.counted && p s) +
      (sigs.countP fun s => s.counted && !p s) = sigs.length := by
  induction sigs with
  | nil => rfl
  | cons s sigs ih =>
    simp only [List.countP_cons, List.length_cons, Signal.counted]
    simp only [Signal.counted] at ih
    cases s.nonTradable <;> cases s.blank <;> cases p s <;> simp <;> omega

/-- What a strategy of the report stands for. -/
def StrategyReport.signals (d : StrategyReport F) : ℕ :=
  d.ignoredSignals + d.unfilledSignals + 2 * d.trades + d.openAtEnd

/-- An entry stands for the signals of its strategy. -/
theorem strategyReport_signals {l : Ledger F} {sigs : List (Signal F)} (ha : Accounted l sigs) (sum : List F → F)
    {e : String × List (Trade F)}
    (he : e ∈ l.trades) : (l.strategyReport sum e.1 e.2).signals = tally sigs e.1 := by
  have htrades : amount Prod.fst (fun e => e.2.length) e.1 l.trades = e.2.length :=
    amount_of_lookup (lookup_key_of_nodup ha.tradeKeys he)
  rw [ha.each, htrades]
  rfl

/-- The report has an entry for a strategy just when the ledger has a closed trade of it. -/
theorem entry_iff {l : Ledger F} {sigs : List (Signal F)} (ha : Accounted l sigs) (fee : F) (sum : List F → F)
    (slipBp : F) (n : ℕ) (strat : String) :
    strat ∈ (l.report fee sum slipBp n).strategies.map Prod.fst ↔ 0 < l.closed strat := by
  have hnames : ((l.report fee sum slipBp n).strategies.map Prod.fst).Perm (l.trades.map Prod.fst) := by
    rw [Ledger.report, List.map_map]
    exact (List.perm_insertionSort (fun a b : String × List (Trade F) => a.1 ≤ b.1) l.trades).map _
  rw [hnames.mem_iff, Ledger.closed, amount]
  constructor
  · intro h
    obtain ⟨e, he⟩ := Option.isSome_iff_exists.1 (mem_keys_iff.1 h)
    rw [he]
    exact ha.closed e (mem_of_lookup he)
  · intro h
    rw [mem_keys_iff]
    cases hl : lookup Prod.fst strat l.trades with
    | none => simp [hl] at h
    | some e => rfl

/-- **Every signal is accounted for**: it is excluded, it is one of those an entry of the report stands for, or its
strategy has closed no trade in the ledger and so has no entry. What a signal books is filled at a bar that starts
after it, in the window. -/
theorem ledger_accounts (rows : List (Row F)) (sigs : List (Signal F)) (fee slipBp : F) (sum : List F → F)
    (r : Report F)
    (h : run fee sum rows sigs slipBp = some r) :
    (∀ before s after, sigs = before ++ s :: after →
      ∃ l l', Ledger.fresh.loop (barsFor rows sigs) fee (divNat slipBp 10000) before = some l ∧
        l.step (barsFor rows sigs) fee (divNat slipBp 10000) s = some l' ∧
        Booking rows fee (divNat slipBp 10000) l s l') ∧
      ∃ l, Ledger.fresh.loop (barsFor rows sigs) fee (divNat slipBp 10000) sigs = some l ∧
      r = l.report fee sum slipBp sigs.length ∧
        (∀ strat, strat ∈ r.strategies.map Prod.fst ↔ 0 < l.closed strat) ∧
        (∀ d ∈ r.strategies, d.2.trades = l.closed d.1) ∧
        r.nonTradableVenue + r.blankSymbol + (r.strategies.map fun d => d.2.signals).sum +
          (sigs.countP fun s => s.counted && decide (l.closed s.strategy = 0)) = r.signalsTotal := by
  obtain ⟨l, hloop, rfl⟩ := Option.map_eq_some_iff.1 h
  refine ⟨fun before s after hsigs => ?_, l, hloop, rfl, ?_⟩
  · rw [hsigs] at hloop
    obtain ⟨m, m', hbefore, hstep⟩ := loop_split hloop
    rw [← hsigs] at hbefore hstep
    exact ⟨m, m', hbefore, hstep, booking_step hstep⟩
  have hfresh : Accounted (Ledger.fresh : Ledger F) [] :=
    ⟨rfl, rfl, fun _ => rfl, List.nodup_nil, List.nodup_nil, fun e he => by cases he⟩
  have ha := accounted_loop hfresh hloop
  rw [List.nil_append] at ha
  have hentry := entry_iff ha fee sum slipBp sigs.length
  have hperm := List.perm_insertionSort (fun a b : String × List (Trade F) => a.1 ≤ b.1) l.trades
  have hsum : ((l.report fee sum slipBp sigs.length).strategies.map fun d => d.2.signals).sum =
      ((l.trades.map Prod.fst).map (tally sigs)).sum := by
    rw [Ledger.report, List.map_map, List.map_map, (hperm.map _).sum_eq]
    congr 1
    apply List.map_congr_left
    intro e he
    exact strategyReport_signals ha sum he
  have hcount := Lists.sum_countP Signal.counted Signal.strategy sigs ha.tradeKeys
  have htotal := countP_excluded sigs fun s => decide (s.strategy ∈ l.trades.map Prod.fst)
  have hnames (strat : String) : strat ∈ l.trades.map Prod.fst ↔ 0 < l.closed strat := by
    rw [← hentry, Ledger.report, List.map_map]
    exact (hperm.map _).mem_iff.symm
  have hlost : (sigs.countP fun s => s.counted && decide (l.closed s.strategy = 0)) =
      sigs.countP fun s => s.counted && !decide (s.strategy ∈ l.trades.map Prod.fst) := by
    simp only [hnames, Nat.pos_iff_ne_zero, ne_eq, decide_not, Bool.not_not]
  have hvenue : (l.report fee sum slipBp sigs.length).nonTradableVenue = sigs.countP Signal.nonTradable := ha.venue
  have hblank : (l.report fee sum slipBp sigs.length).blankSymbol = sigs.countP fun s => !s.nonTradable && s.blank :=
    ha.blank
  refine ⟨hentry, fun d hd => ?_, ?_⟩
  · obtain ⟨e, he, rfl⟩ := List.mem_map.1 hd
    have hlook := lookup_key_of_nodup ha.tradeKeys (hperm.mem_iff.1 he)
    rw [Ledger.closed, amount_of_lookup hlook]
    rfl
  · rw [hsum, hlost, hvenue, hblank]
    rw [← hcount] at htotal
    exact htotal

def roundTrip : List (Signal ℚ) :=
  [⟨0, "UPBIT", "KRW-A", "s", BUY, some 50⟩, ⟨60000000, "UPBIT", "KRW-A", "s", SELL, some 50⟩]

def threeBars : List (Row ℚ) :=
  [⟨"UPBIT", "KRW-A", 0, some 999⟩, ⟨"UPBIT", "KRW-A", 60000000, some 100⟩, ⟨"UPBIT", "KRW-A", 120000000, some 110⟩]

theorem ledger_accounts_roundTrip : ∃ r : Report ℚ, run 0 List.sum threeBars roundTrip 0 = some r ∧
    "s" ∈ r.strategies.map Prod.fst ∧
    ∃ l : Ledger ℚ, (∀ strat, strat ∈ r.strategies.map Prod.fst ↔ 0 < l.closed strat) ∧
      r.nonTradableVenue + r.blankSymbol + (r.strategies.map fun d => d.2.signals).sum +
        (roundTrip.countP fun s => s.counted && decide (l.closed s.strategy = 0)) = r.signalsTotal := by
  have hsome : ((run 0 List.sum threeBars roundTrip 0).map fun r => decide ("s" ∈ r.strategies.map Prod.fst)) =
      some true := by decide +kernel
  obtain ⟨r, hrun, hin⟩ := Option.map_eq_some_iff.1 hsome
  have haccounts := ledger_accounts threeBars roundTrip 0 0 List.sum r hrun
  obtain ⟨-, l, -, -, hentry, -, htotal⟩ := haccounts
  exact ⟨r, hrun, of_decide_eq_true hin, l, hentry, htotal⟩

/-- A buy that no bar fills, and nothing else: the report has no entry for its strategy. -/
theorem left_out :
    (run (1 / 2000) List.sum [] [(⟨0, "UPBIT", "KRW-A", "s", BUY, some 100⟩ : Signal ℚ)] 5).map (fun r =>
      (r.nonTradableVenue + r.blankSymbol + (r.strategies.map fun d => d.2.signals).sum, r.unfilledTotal,
        r.signalsTotal)) = some (0, 1, 1) := by
  decide +kernel

end Strategy.Paper

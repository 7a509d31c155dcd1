import MarketFeed.Lib.Upsert
import MarketFeed.Strategy.Bars
import MarketFeed.Strategy.Indicators
/-!
# The engine at a closed bar, and the backtest (services/strategy.py:72-78, :94-123, quant/backtest.py:182-258)

| here | there |
| --- | --- |
| `Live.strats` | `_strats`: of each key the dict of strategies, filled from `cfg.strategies` at its first bar |
| `Live.emitted` | the calls of `_emit`, oldest first |
| `Cfg` | the arguments of `run`, `lot` and `cooldown_s` after their defaults |
| `Bt.decided` | what `pending` was set to, and at which bar |
-/

namespace Strategy

open Writer PyFloat

variable {F : Type}

/-- A call of `_emit`. -/
structure Emitted (F : Type) where
  venue : String
  symbol : String
  bucketNs : ℕ
  strategy : String
  action : Action
  refPrice : F
  deriving DecidableEq

structure Live (F : Type) where
  barsClosed : ℕ
  strats : String → Option (List (String × Strat F))
  gate : SignalGate F
  emitted : List (Emitted F)

def Live.start (cooldownS : F) : Live F := ⟨0, fun _ => none, .new cooldownS, []⟩

section Code

variable [PyFloat F]

/-- The dict `_strategies_for` makes. -/
def freshStrategies (names : List String) : List (String × Strat F) :=
  Keyed.dictOf Prod.fst (names.filterMap fun n => (registered n).map fun s => (n, s))

/-- One turn of the loop of `_close_bar`; `none` from `on_bar` is an exception, and the loop goes on. -/
def closeOne (key : String) (bar : Bar F) (name : String) (strat : Strat F) (gate : SignalGate F) :
    Strat F × SignalGate F × List (Emitted F) :=
  match strat.onBar bar.close with
  | (strat', none) | (strat', some .hold) => (strat', gate, [])
  | (strat', some action) =>
    let (gate', allowed) := gate.allow key name bar.bucketNs
    (strat', gate', if allowed then [⟨bar.venue, bar.symbol, bar.bucketNs, name, action, bar.close⟩] else [])

def closeStrats (key : String) (bar : Bar F) :
    List (String × Strat F) → SignalGate F → List (String × Strat F) × SignalGate F × List (Emitted F)
  | [], gate => ([], gate, [])
  | (name, strat) :: rest, gate =>
    let (strat', gate', sent) := closeOne key bar name strat gate
    let (rest', gate'', more) := closeStrats key bar rest gate'
    ((name, strat') :: rest', gate'', sent ++ more)

/-- `_close_bar`. -/
def Live.closeBar (names : List String) (key : String) (e : Live F) (bar : Bar F) : Live F :=
  let (strats, gate, sent) := closeStrats key bar ((e.strats key).getD (freshStrategies names)) e.gate
  ⟨e.barsClosed + 1, Function.update e.strats key (some strats), gate, e.emitted ++ sent⟩

/-- The engine fed with bars of one key. -/
def liveOver (names : List String) (cooldownS : F) (key : String) (bars : List (Bar F)) : Live F :=
  bars.foldl (Live.closeBar names key) (Live.start cooldownS)

/-- The signals of one strategy. -/
def Live.signals (e : Live F) (name : String) : List (ℕ × Action) :=
  (e.emitted.filter fun s => s.strategy == name).map fun s => (s.bucketNs, s.action)

end Code

/-! ## Backtest -/

structure Fill (F : Type) where
  tsNs : ℕ
  side : Action
  price : F
  qty : F
  fee : F
  equity : F
  deriving DecidableEq

structure Cfg (F : Type) where
  strategyName : String
  symbol : String
  equity : F
  fee : F
  slippageBp : F
  lot : F
  cashFraction : F
  cooldownS : F

structure Bt (F : Type) where
  cash : F
  position : F
  pending : Action
  strat : Strat F
  gate : SignalGate F
  fills : List (Fill F)
  equityCurve : List (ℕ × F)
  decided : List (ℕ × Action)

structure Result (F : Type) where
  strategy : String
  symbol : String
  bars : ℕ
  startEquity : F
  endEquity : F
  fills : List (Fill F)
  equityCurve : List (ℕ × F)
  suppressed : ℕ

section Code

variable [PyFloat F] (cfg : Cfg F)

def Cfg.slip : F := divNat cfg.slippageBp 10000

/-- The price of a buy at the open of a bar. -/
def Cfg.buyPrice (bar : BarRow F) : F := mul bar.openPrice (add (ofInt 1) cfg.slip)

/-- What the cash buys at a bar, in whole lots where there are lots. -/
def Cfg.quantity (cash : F) (bar : BarRow F) : Option F := do
  let qty ← div (mul cash cfg.cashFraction) (mul (cfg.buyPrice bar) (add (ofInt 1) cfg.fee))
  if lt (ofInt 0) cfg.lot then
    let lots ← div qty cfg.lot
    let whole ← floor lots
    some (mul (ofInt whole) cfg.lot)
  else some qty

def Bt.equity (st : Bt F) (bar : BarRow F) : F := add st.cash (mul st.position bar.close)

/-- Is a buy to be filled at this bar? -/
def Bt.buying (st : Bt F) : Bool := decide (st.pending = .buy) && eq st.position (ofInt 0)

/-- The signal of the last bar, filled at the open of this one; a buy of nothing leaves the rest of the turn out. -/
def Bt.order (st : Bt F) (bar : BarRow F) : Option (Bt F × Bool) :=
  if st.buying then
    (cfg.quantity st.cash bar).map fun qty =>
      if le qty (ofInt 0) then
        ({ st with pending := .hold, equityCurve := st.equityCurve ++ [(bar.bucketNs, st.equity bar)] }, true)
      else
        let px := cfg.buyPrice bar
        let cost := mul qty px
        let fee := mul cost cfg.fee
        let cash := sub st.cash (add cost fee)
        let fill : Fill F := ⟨bar.bucketNs, .buy, px, qty, fee, add cash (mul qty px)⟩
        ({ st with cash := cash, position := qty, pending := .hold, fills := st.fills ++ [fill] }, false)
  else if decide (st.pending = .sell) && lt (ofInt 0) st.position then
    let px := mul bar.openPrice (sub (ofInt 1) cfg.slip)
    let proceeds := mul st.position px
    let fee := mul proceeds cfg.fee
    let cash := add st.cash (sub proceeds fee)
    let fill : Fill F := ⟨bar.bucketNs, .sell, px, st.position, fee, cash⟩
    some ({ st with cash := cash, position := ofInt 0, pending := .hold, fills := st.fills ++ [fill] }, false)
  else some ({ st with pending := .hold }, false)

/-- `symbol or "?"`. -/
def Cfg.key : String := if cfg.symbol = "" then "?" else cfg.symbol

/-- The rest of a turn: the indicators, the gate, and the signal for the next bar. -/
def Bt.signal (last : Bool) (st : Bt F) (bar : BarRow F) : Option (Bt F) :=
  match st.strat.onBar bar.close with
  | (_, none) => none
  | (strat, some .hold) => some { st with strat := strat, equityCurve := st.equityCurve ++
      [(bar.bucketNs, st.equity bar)] }
  | (strat, some sig) =>
    let (gate, allowed) := st.gate.allow cfg.key cfg.strategyName bar.bucketNs
    let st' : Bt F := { st with strat := strat, gate := gate, equityCurve := st.equityCurve ++
      [(bar.bucketNs, st.equity bar)] }
    some (if allowed && !last then { st' with pending := sig, decided := st.decided ++ [(bar.bucketNs, sig)] } else st')

/-- One turn of the loop of `run`; none after an exception. -/
def Bt.turn (last : Bool) (st : Bt F) (bar : BarRow F) : Option (Bt F) :=
  (st.order cfg bar).bind fun (st', skipped) => if skipped then some st' else st'.signal cfg last bar

def Bt.loop : Bt F → List (BarRow F) → Option (Bt F)
  | st, [] => some st
  | st, bar :: bars => (st.turn cfg bars.isEmpty bar).bind fun st' => st'.loop bars

def Cfg.start (strat : Strat F) : Bt F := ⟨cfg.equity, ofInt 0, .hold, strat, .new cfg.cooldownS, [], [], []⟩

/-- The loop of `run` over all bars. -/
def Cfg.simulate (bars : List (BarRow F)) : Option (Bt F) := (registered cfg.strategyName).bind fun strat =>
  (cfg.start strat).loop cfg bars

/-- `run`: what is left is sold at the last close. -/
def Cfg.run (bars : List (BarRow F)) : Option (Result F) := do
  let st ← cfg.simulate bars
  let result (fills : List (Fill F)) (cash : F) : Result F :=
    ⟨cfg.strategyName, cfg.symbol, bars.length, cfg.equity, cash, fills, st.equityCurve, st.gate.suppressed⟩
  match bars.getLast? with
  | some bar =>
    if lt (ofInt 0) st.position then
      let px := mul bar.close (sub (ofInt 1) cfg.slip)
      let proceeds := mul st.position px
      let fee := mul proceeds cfg.fee
      let cash := add st.cash (sub proceeds fee)
      some (result (st.fills ++ [⟨bar.bucketNs, .sell, px, st.position, fee, cash⟩]) cash)
    else some (result st.fills st.cash)
  | none => some (result st.fills st.cash)

end Code

end Strategy

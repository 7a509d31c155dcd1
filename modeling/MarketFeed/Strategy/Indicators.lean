import Mathlib.Data.Int.Notation
import Mathlib.Data.List.Basic
import Mathlib.Logic.Function.Basic
/-!
# Indicators, strategies and the signal gate (indicators.py, strategies.py)

The arithmetic is a parameter: `PyFloat` has the operations the code uses and no laws, so what is proved
holds of binary64, not a number and infinities included. An operation that may raise is `none` there, and
`onBar` returns the state it leaves behind beside its answer, for the engine goes on after an exception.

| here | there |
| --- | --- |
| `PyFloat.divNat` | a float by a positive int: `/ self.n`, `/ (self.n - 1)`, `/ 10_000.0` |
| `RSI.avg` | `(_avg_gain, _avg_loss)`, set together |
| `Strat.onBar` | `on_bar`; of a bar it reads `close` only |
| `REGISTRY` | the classes, here the instances they start as |
-/

namespace Strategy

class PyFloat (F : Type) where
  add : F → F → F
  sub : F → F → F
  mul : F → F → F
  neg : F → F
  div : F → F → Option F
  divNat : F → ℕ → F
  eq : F → F → Bool
  lt : F → F → Bool
  le : F → F → Bool
  ofInt : ℤ → F
  /-- An int compared with a float. -/
  intLt : ℤ → F → Bool
  sqrt : F → Option F
  /-- `math.fsum`. -/
  fsum : List F → Option F
  /-- `math.floor`. -/
  floor : F → Option ℤ

open PyFloat

variable {F : Type} [PyFloat F]

/-- `max(a, b)`: the first of two where neither is greater. -/
def pyMax (a b : F) : F := if lt a b then b else a

inductive Action | hold | buy | sell
  deriving DecidableEq

/-- `deque(maxlen=n).append`. -/
def dequeAppend {α : Type} (n : ℕ) (q : List α) (x : α) : List α := (q ++ [x]).drop (q.length + 1 - n)

/-! ## Indicators -/

structure SMA (F : Type) where
  n : ℕ
  q : List F
  sum : F

def SMA.new (n : ℕ) : SMA F := ⟨n, [], ofInt 0⟩

def SMA.ready (s : SMA F) : Bool := s.q.length == s.n

def SMA.value (s : SMA F) : Option F := if s.ready then some (divNat s.sum s.n) else none

/-- A full window gives its oldest value back before the next one is added. -/
def SMA.update (s : SMA F) (x : F) : SMA F :=
  let sum := match s.q with
    | old :: _ => if s.q.length = s.n then sub s.sum old else s.sum
    | [] => s.sum
  ⟨s.n, dequeAppend s.n s.q x, add sum x⟩

structure EMA (F : Type) where
  n : ℕ
  k : F
  v : Option F
  seed : F
  count : ℕ

def EMA.new (n : ℕ) : EMA F := ⟨n, divNat (ofInt 2) (n + 1), none, ofInt 0, 0⟩

def EMA.value (e : EMA F) : Option F := e.v

def EMA.update (e : EMA F) (x : F) : EMA F :=
  match e.v with
  | none =>
    let e' := { e with count := e.count + 1, seed := add e.seed x }
    if e'.count = e'.n then { e' with v := some (divNat e'.seed e'.n) } else e'
  | some v => { e with count := e.count + 1, v := some (add v (mul e.k (sub x v))) }

structure RSI (F : Type) where
  n : ℕ
  prev : Option F
  avg : Option (F × F)
  count : ℕ
  gainSum : F
  lossSum : F

def RSI.new (n : ℕ) : RSI F := ⟨n, none, none, 0, ofInt 0, ofInt 0⟩

def RSI.value (r : RSI F) : Option (Option F) :=
  match r.avg with
  | none => some none
  | some (gain, loss) =>
    if eq loss (ofInt 0) then some (some (ofInt 100))
    else do
      let rs ← div gain loss
      let part ← div (ofInt 100) (add (ofInt 1) rs)
      some (some (sub (ofInt 100) part))

def RSI.update (r : RSI F) (x : F) : RSI F × Option (Option F) :=
  match r.prev with
  | none => ({ r with prev := some x }, some none)
  | some prev =>
    let change := sub x prev
    let gain := pyMax change (ofInt 0)
    let loss := pyMax (neg change) (ofInt 0)
    match r.avg with
    | none =>
      let r' := { r with prev := some x, count := r.count + 1, gainSum := add r.gainSum gain, lossSum := add r.lossSum loss }
      if r'.count < r'.n then (r', some none)
      else
        let r'' := { r' with avg := some (divNat r'.gainSum r.n, divNat r'.lossSum r.n) }
        (r'', r''.value)
    | some (avgGain, avgLoss) =>
      let smooth (avg now : F) : F := divNat (add (mul avg (ofInt (r.n - 1))) now) r.n
      let r' := { r with prev := some x, avg := some (smooth avgGain gain, smooth avgLoss loss) }
      (r', r'.value)

structure RollingStd (F : Type) where
  n : ℕ
  q : List F
  sum : F
  sq : F
  sinceRecalc : ℕ

def RollingStd.new (n : ℕ) : RollingStd F := ⟨n, [], ofInt 0, ofInt 0, 0⟩

def RollingStd.ready (s : RollingStd F) : Bool := s.q.length == s.n

def RollingStd.value (s : RollingStd F) : Option (Option F) :=
  if s.ready then
    let mean := divNat s.sum s.n
    let var := pyMax (sub (divNat s.sq s.n) (mul mean mean)) (ofInt 0)
    let var := mul var (if 1 < s.n then divNat (ofInt s.n) (s.n - 1) else ofInt 1)
    (sqrt var).map some
  else some none

def RollingStd.update (s : RollingStd F) (x : F) : RollingStd F × Option (Option F) :=
  let (sum, sq) := match s.q with
    | old :: _ => if s.q.length = s.n then (sub s.sum old, sub s.sq (mul old old)) else (s.sum, s.sq)
    | [] => (s.sum, s.sq)
  let s' : RollingStd F := ⟨s.n, dequeAppend s.n s.q x, add sum x, add sq (mul x x), s.sinceRecalc + 1⟩
  if 10000 ≤ s'.sinceRecalc then
    match fsum s'.q with
    | none => (s', none)
    | some sum => match fsum (s'.q.map fun v => mul v v) with
      | none => ({ s' with sum := sum }, none)
      | some sq =>
        let s'' := { s' with sum := sum, sq := sq, sinceRecalc := 0 }
        (s'', s''.value)
  else (s', s'.value)

structure Bollinger (F : Type) where
  k : F
  sma : SMA F
  std : RollingStd F

def Bollinger.new (n : ℕ) (k : F) : Bollinger F := ⟨k, .new n, .new n⟩

/-- Middle, upper and lower band. -/
def Bollinger.value (b : Bollinger F) : Option (Option (F × F × F)) :=
  match b.sma.value with
  | none => some none
  | some m => b.std.value.map fun s => s.map fun s => (m, add m (mul b.k s), sub m (mul b.k s))

def Bollinger.update (b : Bollinger F) (x : F) : Bollinger F × Option (Option (F × F × F)) :=
  let (std, raised) := b.std.update x
  let b' : Bollinger F := { b with sma := b.sma.update x, std := std }
  (b', raised.bind fun _ => b'.value)

/-- `abs`: no zero has a sign after it. -/
def pyAbs (a : F) : F := if lt a (ofInt 0) then neg a else if eq a (ofInt 0) then ofInt 0 else a

structure ATR (F : Type) where
  n : ℕ
  prevClose : Option F
  avg : Option F
  sum : F
  count : ℕ

def ATR.new (n : ℕ) : ATR F := ⟨n, none, none, ofInt 0, 0⟩

def ATR.value (a : ATR F) : Option F := a.avg

/-- `tr` in `update`. -/
def trueRange (prevClose : Option F) (high low : F) : F :=
  match prevClose with
  | none => sub high low
  | some prev => pyMax (pyMax (sub high low) (pyAbs (sub high prev))) (pyAbs (sub low prev))

def ATR.update (a : ATR F) (high low close : F) : ATR F :=
  let tr := trueRange a.prevClose high low
  match a.avg with
  | none =>
    let a' := { a with prevClose := some close, count := a.count + 1, sum := add a.sum tr }
    if a'.count < a'.n then a' else { a' with avg := some (divNat a'.sum a'.n) }
  | some avg => { a with prevClose := some close, avg := some (divNat (add (mul avg (ofInt (a.n - 1))) tr) a.n) }

/-- `Crossover._prev`, and its answer; equal values are no crossing. -/
def crossover (prev : Option Bool) (a b : F) : Option Bool × Action :=
  if eq a b then (prev, .hold)
  else
    let cur := lt b a
    (some cur, match prev with
      | none => .hold
      | some p => if p = cur then .hold else if cur then .buy else .sell)

/-! ## Strategies -/

structure SMACross (F : Type) where
  fast : SMA F
  slow : SMA F
  cross : Option Bool

structure RSIRevert (F : Type) where
  low : F
  high : F
  rsi : RSI F
  wasLow : Bool
  wasHigh : Bool

structure BollingerBreak (F : Type) where
  bb : Bollinger F
  inside : Bool

/-- The subclasses of `Strategy`. -/
inductive Strat (F : Type)
  | smaCross (s : SMACross F)
  | rsiRevert (s : RSIRevert F)
  | bbBreak (s : BollingerBreak F)

def SMACross.onBar (s : SMACross F) (close : F) : SMACross F × Action :=
  let fast := s.fast.update close
  let slow := s.slow.update close
  match fast.value, slow.value with
  | some f, some v =>
    let (cross, action) := crossover s.cross f v
    (⟨fast, slow, cross⟩, action)
  | _, _ => (⟨fast, slow, s.cross⟩, .hold)

def RSIRevert.onBar (s : RSIRevert F) (close : F) : RSIRevert F × Option Action :=
  let (rsi, answer) := s.rsi.update close
  match answer with
  | none => ({ s with rsi := rsi }, none)
  | some none => ({ s with rsi := rsi }, some .hold)
  | some (some v) =>
    let sig : Action := if s.wasLow && lt s.low v then .buy else if s.wasHigh && lt v s.high then .sell else .hold
    ({ s with rsi := rsi, wasLow := le v s.low, wasHigh := le s.high v }, some sig)

def BollingerBreak.onBar (s : BollingerBreak F) (close : F) : BollingerBreak F × Option Action :=
  let (bb, answer) := s.bb.update close
  match answer with
  | none => ({ s with bb := bb }, none)
  | some none => ({ s with bb := bb }, some .hold)
  | some (some (_, up, lo)) =>
    let sig : Action := if s.inside && lt up close then .buy else if s.inside && lt close lo then .sell else .hold
    (⟨bb, le lo close && le close up⟩, some sig)

def Strat.onBar : Strat F → F → Strat F × Option Action
  | .smaCross s, close => (.smaCross (s.onBar close).1, some (s.onBar close).2)
  | .rsiRevert s, close => (.rsiRevert (s.onBar close).1, (s.onBar close).2)
  | .bbBreak s, close => (.bbBreak (s.onBar close).1, (s.onBar close).2)

def REGISTRY : List (String × Strat F) :=
  [("sma_cross", .smaCross ⟨.new 10, .new 30, none⟩),
    ("rsi_revert", .rsiRevert ⟨ofInt 30, ofInt 70, .new 14, false, false⟩),
    ("bb_break", .bbBreak ⟨.new 20 (ofInt 2), true⟩)]

/-- `REGISTRY.get(name)`. -/
def registered (name : String) : Option (Strat F) :=
  ((REGISTRY : List (String × Strat F)).find? fun r => r.1 == name).map (·.2)

/-! ## The gate -/

structure SignalGate (F : Type) where
  cooldownS : F
  suppressed : ℕ
  last : String × String → Option ℕ

def SignalGate.new (cooldownS : F) : SignalGate F := ⟨cooldownS, 0, fun _ => none⟩

/-- Has the cooldown passed since `prev`? -/
def cooled (cooldownS : F) (prev : Option ℕ) (barTsNs : ℕ) : Bool :=
  match prev with
  | none => true
  | some prev => !intLt ((barTsNs : ℤ) - prev) (mul cooldownS (ofInt 1000000000))

def SignalGate.allow (g : SignalGate F) (key strategy : String) (barTsNs : ℕ) : SignalGate F × Bool :=
  if le g.cooldownS (ofInt 0) then (g, true)
  else if cooled g.cooldownS (g.last (key, strategy)) barTsNs then
    ({ g with last := Function.update g.last (key, strategy) (some barTsNs) }, true)
  else ({ g with suppressed := g.suppressed + 1 }, false)

end Strategy

import Mathlib.Order.Lattice
import Mathlib.Algebra.Ring.Int.Defs
import Mathlib.Order.Defs.LinearOrder
import MarketFeed.Storage.Rows
/-!
# Messages, and the rows the writer makes of them (models.py:136-270, writer.py:182-207)

The messages are the unpacked structs: `!16s8sQQddB7x`, `!16s8sQQdddd` and `!16s8s16sQbdd7x`, so the
integers have the wire's widths. `F` stands for `float`, its operations for the exact ones: what is
said of sums of quantities is said up to rounding.

| here | there |
| --- | --- |
| `Trade`, `BookTop`, `Signal`, `Frame` | the dataclasses, and a frame of the bus with its `seq` |
| `Trade.row`, `BookTop.row`, `Signal.row` | the tuples `_ingest` appends (`writer.py:182-199`) |
| `bucketOf`, `Trade.barKey` | `bucket_ns` and `key` of `_accumulate_bar` (`writer.py:201-203`) |
| `Bar`, `Bar.update`, `Bar.row` | `Bar` (`models.py:243-270`), the tuple of `_flush_locked` (`writer.py:228-230`) |
-/

namespace Writer

open Storage Keyed

variable {F : Type}

structure Trade (F : Type) where
  venue : String
  symbol : String
  tsEventNs : UInt64
  tsRecvNs : UInt64
  price : F
  qty : F
  side : UInt8
  deriving DecidableEq

structure BookTop (F : Type) where
  venue : String
  symbol : String
  tsEventNs : UInt64
  tsRecvNs : UInt64
  bid : F
  bidQty : F
  ask : F
  askQty : F
  deriving DecidableEq

structure Signal (F : Type) where
  venue : String
  symbol : String
  tsNs : UInt64
  strategy : String
  action : Int8
  strength : F
  refPrice : F
  deriving DecidableEq

inductive Payload (F : Type)
  | trade (t : Trade F)
  | book (b : BookTop F)
  | signal (s : Signal F)
  deriving DecidableEq

structure Frame (F : Type) where
  seq : UInt64
  payload : Payload F
  deriving DecidableEq

/-- A row of one of the three buffers. -/
inductive Row (F : Type)
  | trade (r : TradeRow F)
  | book (r : BookRow F)
  | signal (r : SignalRow F)
  deriving DecidableEq

/-- `self._trades`, `self._books`, `self._signals`. -/
inductive Kind | trades | books | signals
  deriving DecidableEq

def Row.kind : Row F → Kind
  | .trade _ => .trades
  | .book _ => .books
  | .signal _ => .signals

def Trade.row (t : Trade F) (latencyUs : Int) (seq : UInt64) : TradeRow F where
  ts := t.tsEventNs.toNat / 1000
  venue := t.venue
  symbol := t.symbol
  price := t.price
  qty := t.qty
  side := t.side.toNat
  recvTs := t.tsRecvNs.toNat / 1000
  latencyUs := latencyUs
  seq := seq.toNat

def Signal.row (s : Signal F) : SignalRow F where
  ts := s.tsNs.toNat / 1000
  venue := s.venue
  symbol := s.symbol
  strategy := s.strategy
  action := s.action.toInt
  strength := s.strength
  refPrice := s.refPrice

section

variable [CommRing F] [Div F] [LinearOrder F]

def BookTop.mid (b : BookTop F) : F := if b.bid ≠ 0 ∧ b.ask ≠ 0 then (b.bid + b.ask) / 2 else 0

def BookTop.spreadBp (b : BookTop F) : F := if b.mid ≠ 0 then (b.ask - b.bid) / b.mid * 10000 else 0

def BookTop.row (b : BookTop F) : BookRow F where
  ts := b.tsEventNs.toNat / 1000
  venue := b.venue
  symbol := b.symbol
  bid := b.bid
  bidQty := b.bidQty
  ask := b.ask
  askQty := b.askQty
  spreadBp := b.spreadBp

end

/-! ## Bars -/

abbrev BarKey := String × String × Nat

/-- Nanoseconds of an interval. -/
def intervalNs (intervalS : Nat) : Nat := intervalS * 1000000000

def bucketOf (intervalS ts : Nat) : Nat := ts / intervalNs intervalS * intervalNs intervalS

def Trade.barKey (intervalS : Nat) (t : Trade F) : BarKey := (t.venue, t.symbol, bucketOf intervalS t.tsEventNs.toNat)

structure Bar (F : Type) where
  venue : String
  symbol : String
  bucketNs : Nat
  openPrice : F
  high : F
  low : F
  close : F
  volume : F
  notional : F
  tickCount : Nat
  deriving DecidableEq

def Bar.key (b : Bar F) : BarKey := (b.venue, b.symbol, b.bucketNs)

section

variable [Zero F] [Add F] [Mul F] [Max F] [Min F]

def Trade.notional (t : Trade F) : F := t.price * t.qty

/-- `Bar(t.venue, t.symbol, bucket_ns, iv)`. -/
def Bar.new (k : BarKey) : Bar F := ⟨k.1, k.2.1, k.2.2, 0, 0, 0, 0, 0, 0, 0⟩

def Bar.update (b : Bar F) (t : Trade F) : Bar F where
  venue := b.venue
  symbol := b.symbol
  bucketNs := b.bucketNs
  openPrice := if b.tickCount = 0 then t.price else b.openPrice
  high := max (if b.tickCount = 0 then t.price else b.high) t.price
  low := min (if b.tickCount = 0 then t.price else b.low) t.price
  close := t.price
  volume := b.volume + t.qty
  notional := b.notional + t.notional
  tickCount := b.tickCount + 1

omit [Add F] [Mul F] [Max F] [Min F] in
@[simp] theorem new_key (k : BarKey) : (Bar.new k : Bar F).key = k := rfl

omit [Zero F] in
@[simp] theorem update_key (b : Bar F) (t : Trade F) : (b.update t).key = b.key := rfl

variable [Div F] [DecidableEq F]

def Bar.vwap (b : Bar F) : F := if b.volume ≠ 0 then b.notional / b.volume else b.close

def Bar.row (b : Bar F) : BarRow F where
  bucket := (b.bucketNs / 1000 : Nat)
  venue := b.venue
  symbol := b.symbol
  openPrice := b.openPrice
  high := b.high
  low := b.low
  close := b.close
  volume := b.volume
  notional := b.notional
  vwap := b.vwap
  tickCount := b.tickCount

/-- The key of the stored row of a bar. -/
def storedKey (k : BarKey) : String × String × Int := (k.1, k.2.1, (k.2.2 / 1000 : Nat))

omit [Add F] [Mul F] [Max F] [Min F] in
@[simp] theorem row_key (b : Bar F) : b.row.key = storedKey b.key := rfl

end

/-- Buckets are whole seconds, so a stored key names one bar. -/
theorem storedKey_inj {k k' : BarKey} (h : 1000 ∣ k.2.2) (h' : 1000 ∣ k'.2.2) (he : storedKey k = storedKey k') :
    k = k' := by
  obtain ⟨v, s, n⟩ := k
  obtain ⟨v', s', n'⟩ := k'
  simp only [storedKey, Prod.mk.injEq, Int.natCast_inj] at he
  obtain ⟨rfl, rfl, he⟩ := he
  simp only at h h'
  have hn : n = n' := by omega
  rw [hn]

theorem bucketOf_dvd (intervalS ts : Nat) : 1000 ∣ bucketOf intervalS ts := by
  have h : 1000 ∣ intervalNs intervalS := by
    show 1000 ∣ intervalS * 1000000000
    omega
  exact Nat.dvd_mul_left_of_dvd h _

end Writer

import Mathlib.Data.Int.Order.Basic
import MarketFeed.Ring.Step
/-!
# Whole operations of the two ring buffers (ringbuffer.py:77-142, ringbuffer.hpp:70-104)

A push that nothing overlaps is one change of the ring, a poll one change of its reader. The two sources
are written down side by side: Python's integers have no width, C++'s registers wrap at 2^64 and the
length it stores at 2^32.

| here | there |
| --- | --- |
| `Geometry` | `slot_size` and `capacity` as the shared header holds them, 32 bits wide |
| `Shm` | the slots and `write_seq`, in the layout both sources share |
| `Raised` | what ends a push: Python's exceptions; in C++ `invalid_argument`, or the trap of a division by 0 |
| `Py.pollLoop k`, `Cpp.pollLoop k` | the `while` of `poll` with `k` numbers left up to `write_seq` |
| `Reader.attach` | `RingReader(ring, start)`, `Reader(r, start)`, and `reader()` when there is no `start` |

Python's `poll` can be given a negative `max_items`, and reads nothing then.
-/

namespace Ring

/-- What the header of the segment can hold. -/
structure Geometry extends Cfg where
  slot32 : slotSize < 2 ^ 32

structure Shm where
  slots : Nat → Slot
  writeSeq : Nat

/-- A new segment is zero. -/
def Shm.create : Shm := ⟨fun _ => .zero, 0⟩

structure Reader where
  cursor : Nat
  skipped : Nat
  torn : Nat
  deriving DecidableEq

def Reader.attach (shm : Shm) (start : Option Nat) : Reader := ⟨start.getD shm.writeSeq, 0, 0⟩

inductive Raised
  /-- `payload {n}B > slot payload {payload_max}B` -/
  | tooLong
  | divisionByZero
  /-- `write_seq` does not fit into 8 bytes; the slot is written by then. -/
  | seqOverflow
  deriving DecidableEq

/-- The payload bytes of a slot after `n` of them were stored; those behind them are the old ones. -/
def Slot.store (slot : Slot) (seq length : Nat) (payload : List UInt8) : Slot :=
  { head := seq, length, bytes := fun i => payload.getD i (slot.bytes i), tail := seq }

/-- `length` bytes of the payload. -/
def Slot.data (slot : Slot) (length : Nat) : List UInt8 := (List.range length).map slot.bytes

namespace Py

def push (cfg : Cfg) (shm : Shm) (payload : List UInt8) : Except Raised Nat × Shm :=
  let n := payload.length
  if cfg.payloadMax < n then (.error .tooLong, shm)
  else if cfg.capacity = 0 then (.error .divisionByZero, shm)
  else
    let seq := shm.writeSeq
    let slots := Function.update shm.slots (seq % cfg.capacity) ((shm.slots (seq % cfg.capacity)).store seq n payload)
    if seq + 1 < 2 ^ 64 then (.ok seq, ⟨slots, seq + 1⟩) else (.error .seqOverflow, ⟨slots, seq⟩)

def pollLoop (cfg : Cfg) (shm : Shm) (writeSeq : Nat) (maxItems : Int) : Nat → List (List UInt8) → Reader →
    List (List UInt8) × Reader
  | 0, out, rd => (out, rd)
  | k + 1, out, rd =>
    if rd.cursor < writeSeq ∧ (out.length : Int) < maxItems then
      let slot := shm.slots (rd.cursor % cfg.capacity)
      if slot.head ≠ rd.cursor ∨ cfg.payloadMax < slot.length then
        pollLoop cfg shm writeSeq maxItems k out { rd with torn := rd.torn + 1, cursor := rd.cursor + 1 }
      else if slot.tail ≠ rd.cursor then
        pollLoop cfg shm writeSeq maxItems k out { rd with torn := rd.torn + 1, cursor := rd.cursor + 1 }
      else pollLoop cfg shm writeSeq maxItems k (out ++ [slot.data slot.length]) { rd with cursor := rd.cursor + 1 }
    else (out, rd)

def poll (cfg : Cfg) (shm : Shm) (maxItems : Int) (rd : Reader) : List (List UInt8) × Reader :=
  let writeSeq := shm.writeSeq
  let behind : Int := (writeSeq : Int) - rd.cursor
  let rd' := if (cfg.capacity : Int) < behind then
      { rd with skipped := rd.skipped + (behind - cfg.capacity).toNat, cursor := writeSeq - cfg.capacity }
    else rd
  pollLoop cfg shm writeSeq maxItems (writeSeq - rd'.cursor) [] rd'

end Py

namespace Cpp

def wrap (n : Nat) : Nat := n % 2 ^ 64

/-- `a - b` of two registers. -/
def sub (a b : Nat) : Nat := wrap (a + (2 ^ 64 - b))

def push (cfg : Cfg) (shm : Shm) (payload : List UInt8) : Except Raised Nat × Shm :=
  let n := payload.length
  if cfg.payloadMax < n then (.error .tooLong, shm)
  else if cfg.capacity = 0 then (.error .divisionByZero, shm)
  else
    let seq := shm.writeSeq
    let slots := Function.update shm.slots (seq % cfg.capacity)
      ((shm.slots (seq % cfg.capacity)).store seq (n % 2 ^ 32) payload)
    (.ok seq, ⟨slots, wrap (seq + 1)⟩)

def pollLoop (cfg : Cfg) (shm : Shm) (writeSeq maxItems : Nat) : Nat → Nat → List (List UInt8) → Reader →
    List (List UInt8) × Reader
  | 0, _, out, rd => (out, rd)
  | k + 1, got, out, rd =>
    if rd.cursor < writeSeq ∧ got < maxItems then
      let slot := shm.slots (rd.cursor % cfg.capacity)
      if slot.head ≠ rd.cursor ∨ cfg.payloadMax < slot.length then
        pollLoop cfg shm writeSeq maxItems k got out { rd with torn := wrap (rd.torn + 1), cursor := wrap (rd.cursor + 1) }
      else
        let data := slot.data slot.length
        if slot.tail ≠ rd.cursor then
          pollLoop cfg shm writeSeq maxItems k got out { rd with torn := wrap (rd.torn + 1), cursor := wrap (rd.cursor + 1) }
        else pollLoop cfg shm writeSeq maxItems k (got + 1) (out ++ [data]) { rd with cursor := wrap (rd.cursor + 1) }
    else (out, rd)

def poll (cfg : Cfg) (shm : Shm) (maxItems : Nat) (rd : Reader) : List (List UInt8) × Reader :=
  let writeSeq := shm.writeSeq
  let behind := sub writeSeq rd.cursor
  let rd' := if cfg.capacity < behind then
      { rd with skipped := wrap (rd.skipped + (behind - cfg.capacity)), cursor := sub writeSeq cfg.capacity }
    else rd
  pollLoop cfg shm writeSeq maxItems (writeSeq - rd'.cursor) 0 [] rd'

end Cpp

end Ring

import Mathlib.Algebra.Group.Nat.Defs
import Mathlib.Logic.Function.Basic
import MarketFeed.Lib.Run
/-!
# The shared-memory ring buffer, store by store (ringbuffer.py:31-142, ringbuffer.hpp:70-104)

One producer and one reader share the slots and `write_seq`. A step is one store of `push` or one
load of `poll`, in program order on each side; the payload is copied byte by byte, in ascending
order. The steps are Python's. C++ takes the same but in two places: a reader started past the end is lapped
there, as the difference wraps, and at 2 ^ 64 `write_seq` goes back to 0.

| here | there |
| --- | --- |
| `Slot` | `seq_head`, `length`, the payload bytes, `seq_tail` of the slot at `HDR_SIZE + i * slot_size` |
| `Push.next` | the next store: `pack_into("!QI", …)` is `head` then `length`, the slice `bytes`, `seq_tail`, `write_seq` |
| `Poll.next` | the next load: `unpack_from("!QI", …)` is `head` then `length`, the slice `bytes`, then `seq_tail` |
| `State.startPoll` | `poll` up to its loop: `write_seq` is loaded once, a reader that was lapped jumps |
| `State.discard`, `State.deliver` | `self.torn += 1`, `out.append(data)`, each with `self.cursor += 1` |
| `pushed`, `returned` | the payload of each number, the payloads returned with their numbers |
| `Poll.unfinished` | the push that had stored a length or byte this read has loaded, when it was before its trailer |

A push that raises before its first store (payload too long, capacity 0) is no step.
-/

namespace Ring

def SLOT_HDR : Nat := 12
def SLOT_TAIL : Nat := 8

structure Cfg where
  capacity : Nat
  slotSize : Nat
  /-- The check of the constructor. -/
  payload_pos : SLOT_HDR + SLOT_TAIL < slotSize

def Cfg.payloadMax (cfg : Cfg) : Nat := cfg.slotSize - SLOT_HDR - SLOT_TAIL

structure Slot where
  head : Nat
  length : Nat
  bytes : Nat → UInt8
  tail : Nat

/-- Fresh shared memory is zero. -/
def Slot.zero : Slot := ⟨0, 0, fun _ => 0, 0⟩

inductive Store
  | head
  | length
  | bytes (i : Nat)
  | writeSeq
  deriving DecidableEq

structure Push where
  seq : Nat
  payload : List UInt8
  next : Store
  deriving DecidableEq

inductive Load
  | head
  | length (head : Nat)
  | bytes (n : Nat) (data : List UInt8)
  deriving DecidableEq

structure Poll where
  writeSeq : Nat
  maxItems : Nat
  out : List (List UInt8)
  next : Load
  unfinished : Option Nat
  deriving DecidableEq

structure State where
  slots : Nat → Slot
  writeSeq : Nat
  producer : Option Push
  cursor : Nat
  skipped : Nat
  torn : Nat
  poll : Option Poll
  pushed : List (List UInt8)
  returned : List (Nat × List UInt8)

def State.init : State := ⟨fun _ => .zero, 0, none, 0, 0, 0, none, [], []⟩

/-! ## The producer -/

/-- What of a slot a push overwrites before its trailer. -/
inductive Loc
  | length
  | byte (k : Nat)

def Push.stored (p : Push) : Loc → Bool
  | .length => match p.next with
    | .head | .length => false
    | .bytes _ | .writeSeq => true
  | .byte k => match p.next with
    | .head | .length => false
    | .bytes i => decide (k < i)
    | .writeSeq => true

def State.storeSlot (cfg : Cfg) (st : State) (p : Push) (f : Slot → Slot) (next : Store) : State :=
  { st with
    slots := Function.update st.slots (p.seq % cfg.capacity) (f (st.slots (p.seq % cfg.capacity)))
    producer := some { p with next } }

/-- The next store of a push. Past 2 ^ 64 - 1 the last one raises. -/
def State.store (cfg : Cfg) (st : State) (p : Push) : State :=
  match p.next with
  | .head => st.storeSlot cfg p (fun s => { s with head := p.seq }) .length
  | .length => st.storeSlot cfg p (fun s => { s with length := p.payload.length }) (.bytes 0)
  | .bytes i =>
    match p.payload[i]? with
    | some b => st.storeSlot cfg p (fun s => { s with bytes := Function.update s.bytes i b }) (.bytes (i + 1))
    | none => st.storeSlot cfg p (fun s => { s with tail := p.seq }) .writeSeq
  | .writeSeq =>
    if p.seq + 1 < 2 ^ 64 then
      { st with writeSeq := p.seq + 1, producer := none, pushed := st.pushed ++ [p.payload] }
    else { st with producer := none }

/-! ## The reader -/

def State.slot (cfg : Cfg) (st : State) : Slot := st.slots (st.cursor % cfg.capacity)

/-- The loop condition, before the next item or the end of the poll. -/
def State.nextItem (st : State) (q : Poll) : State :=
  if st.cursor < q.writeSeq ∧ q.out.length < q.maxItems then
    { st with poll := some { q with next := .head, unfinished := none } }
  else { st with poll := none }

def State.startPoll (cfg : Cfg) (st : State) (maxItems : Nat) : State :=
  let behind := st.writeSeq - st.cursor
  let lost := behind - cfg.capacity
  let st' := if cfg.capacity < behind then
      { st with skipped := st.skipped + lost, cursor := st.writeSeq - cfg.capacity }
    else st
  st'.nextItem ⟨st.writeSeq, maxItems, [], .head, none⟩

def State.discard (st : State) (q : Poll) : State :=
  State.nextItem { st with torn := st.torn + 1, cursor := st.cursor + 1 } q

def State.deliver (st : State) (q : Poll) (data : List UInt8) : State :=
  State.nextItem { st with cursor := st.cursor + 1, returned := st.returned ++ [(st.cursor, data)] }
    { q with out := q.out ++ [data] }

/-- The push that has overwritten this part of the slot under the reader and not yet its trailer. -/
def State.overwriting (cfg : Cfg) (st : State) (loc : Loc) : Option Nat :=
  match st.producer with
  | some p =>
    if p.seq % cfg.capacity = st.cursor % cfg.capacity ∧ p.stored loc = true ∧ p.next ≠ .writeSeq then some p.seq
    else none
  | none => none

/-- The next load of a poll. -/
def State.load (cfg : Cfg) (st : State) (q : Poll) : State :=
  match q.next with
  | .head => { st with poll := some { q with next := .length (st.slot cfg).head } }
  | .length head =>
    if head ≠ st.cursor ∨ cfg.payloadMax < (st.slot cfg).length then st.discard q
    else
      { st with
        poll := some { q with
          next := .bytes (st.slot cfg).length []
          unfinished := st.overwriting cfg .length } }
  | .bytes n data =>
    if data.length < n then
      { st with
        poll := some { q with
          next := .bytes n (data ++ [(st.slot cfg).bytes data.length])
          unfinished := (st.overwriting cfg (.byte data.length)).or q.unfinished } }
    else if (st.slot cfg).tail ≠ st.cursor then st.discard q
    else st.deliver q data

inductive Label
  | push (payload : List UInt8)
  | store
  | reader (start : Option Nat)
  | poll (maxItems : Nat)
  | load

def step (cfg : Cfg) (st : State) : Label → Option State
  | .push payload =>
    if st.producer = none ∧ 0 < cfg.capacity ∧ payload.length ≤ cfg.payloadMax then
      some { st with producer := some ⟨st.writeSeq, payload, .head⟩ }
    else none
  | .store => st.producer.map (st.store cfg)
  | .reader start =>
    if st.poll = none then some { st with cursor := start.getD st.writeSeq, skipped := 0, torn := 0 } else none
  | .poll maxItems => if st.poll = none then some (st.startPoll cfg maxItems) else none
  | .load => st.poll.map (st.load cfg)

end Ring

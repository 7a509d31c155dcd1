import MarketFeed.Lib.Feed
import MarketFeed.Lib.Upsert
import MarketFeed.Mcast.Publisher
import MarketFeed.Lib.Binary64
/-!
# The multicast subscriber (mcast_client.py:30-45, :48-63, :108-214)

| here | there |
| --- | --- |
| `Client` | `McastSubscriber`; a dict is a list under its key |
| `Client.sent` | what the client has written to the recovery channel and the publisher has not read yet |
| `Client.passed` | what was handed on from the snapshot's `next_seq` on, a hole for each number counted in `unrecoverable` |
| `Client.held` | the frames put into `pending` since the snapshot, with what the snapshot left there |
| `Client.drainPending`, `.requestMissing` | the loops, with a bound on their turns (`drainPending_done`) |
| `Tcp` | a frame of the recovery channel, by what `_on_tcp` looks at first |

`time.time()` is a rational and a difference of two readings rounds to a binary64. Latencies and byte
counts are left out.
-/

namespace Mcast

open Keyed

def RETRANS_TIMEOUT_S : ℚ := 1
def MAX_PENDING : Nat := 200000
/-- `Trade.SIZE`. -/
def TRADE_SIZE : Nat := 64

structure Stats where
  delivered : Nat
  trades : Nat
  heartbeats : Nat
  snapshotFrames : Nat
  duplicates : Nat
  discardedBeforeSnapshot : Nat
  gapsDetected : Nat
  retransRequests : Nat
  retransFrames : Nat
  unrecoverable : Nat
  reordered : Nat
  maxPending : Nat
  deriving DecidableEq

inductive Request
  | subscribe
  | retrans (lo hi : Nat)
  deriving DecidableEq

structure SnapshotMeta where
  snapshotCount : Nat
  tsNs : Nat
  nextSeq : Nat
  deriving DecidableEq

structure Client where
  expected : Option Nat
  pending : List Frame
  outstanding : List ((Nat × Nat) × ℚ)
  gapSeenAt : List (Nat × ℚ)
  snapshotMeta : Option SnapshotMeta
  stats : Stats
  sent : List Request
  passed : List (Option Frame)
  held : List Frame
  deriving DecidableEq

/-- After the constructor: the group is joined, the snapshot asked for. -/
def Client.new : Client where
  expected := none
  pending := []
  outstanding := []
  gapSeenAt := []
  snapshotMeta := none
  stats := ⟨0, 0, 0, 0, 0, 0, 0, 0, 0, 0, 0, 0⟩
  sent := [.subscribe]
  passed := []
  held := []

/-- The number the snapshot starts the increments with. -/
def Client.start (c : Client) : Nat := c.snapshotMeta.elim 0 SnapshotMeta.nextSeq

/-- The frames delivered so far, in order. -/
def Client.delivered (c : Client) : List Frame := Feed.items c.passed

/-- The numbers counted in `unrecoverable`. -/
def Client.lost (c : Client) : List Nat := Feed.holes c.start c.passed

/-! ## Order -/

def Client.deliver (c : Client) (f : Frame) : Client :=
  { c with
    stats := { c.stats with
      delivered := c.stats.delivered + 1
      trades := c.stats.trades + (if f.msgType = .trade ∧ TRADE_SIZE ≤ f.payload.length then 1 else 0)
      heartbeats := c.stats.heartbeats + (if f.msgType = .heartbeat then 1 else 0) }
    passed := c.passed ++ [some f] }

/-- One turn of `_drain_pending`: the expected frame is held. -/
def Client.take (c : Client) (e : Nat) (f : Frame) : Client :=
  Client.deliver
    { c with
      gapSeenAt := erase Prod.fst e c.gapSeenAt
      pending := erase Frame.seq e c.pending
      expected := some (e + 1) } f

/-- `while self.expected in self.pending`, at most `n` turns. -/
def Client.drainPending : Nat → Client → Client
  | 0, c => c
  | n + 1, c =>
    match c.expected with
    | none => c
    | some e =>
      match lookup Frame.seq e c.pending with
      | none => c
      | some f => drainPending n (c.take e f)

def Client.drain (c : Client) : Client := c.drainPending c.pending.length

/-- `d.setdefault(seq, now)`. -/
def Client.seeGap (c : Client) (seq : Nat) (now : ℚ) : Client :=
  match lookup Prod.fst seq c.gapSeenAt with
  | some _ => c
  | none => { c with gapSeenAt := c.gapSeenAt ++ [(seq, now)] }

/-- The last missing number after `hi`: `while hi + 1 < upto_exclusive and (hi + 1) not in self.pending`. -/
def Client.gapEnd (c : Client) (upto : Nat) : Nat → Nat → Nat
  | 0, hi => hi
  | n + 1, hi =>
    if hi + 1 < upto ∧ (lookup Frame.seq (hi + 1) c.pending).isNone then gapEnd c upto n (hi + 1) else hi

/-- One gap of `_request_missing`: wait, ask, or ask again. -/
def Client.requestGap (delay now : ℚ) (c : Client) (lo hi : Nat) : Client :=
  let firstSeen := (lookup Prod.fst lo c.gapSeenAt).elim now Prod.snd
  let asked := lookup Prod.fst (lo, hi) c.outstanding
  if asked.isNone ∧ Double.binary64 (now - firstSeen) < delay then c
  else if RETRANS_TIMEOUT_S ≤ Double.binary64 (now - asked.elim 0 Prod.snd) then
    { c with
      stats := { c.stats with
        gapsDetected := c.stats.gapsDetected + (if asked.isNone then 1 else 0)
        retransRequests := c.stats.retransRequests + 1 }
      outstanding := upsert Prod.fst (fun _ r => r) c.outstanding ((lo, hi), now)
      sent := c.sent ++ [.retrans lo hi] }
  else c

/-- The loop of `_request_missing` from `lo`, at most `n` turns. -/
def Client.requestFrom (delay now : ℚ) (upto : Nat) : Nat → Client → Nat → Client
  | 0, c, _ => c
  | n + 1, c, lo =>
    if lo < upto then
      if (lookup Frame.seq lo c.pending).isSome then requestFrom delay now upto n c (lo + 1)
      else
        let hi := c.gapEnd upto (upto - lo) lo
        requestFrom delay now upto n (Client.requestGap delay now (c.seeGap lo now) lo hi) (hi + 1)
    else c

def Client.requestMissing (delay now : ℚ) (upto : Nat) (c : Client) : Client :=
  match c.expected with
  | none => c
  | some lo => c.requestFrom delay now upto (upto - lo) lo

/-- `min(self.pending)`, where there is one. -/
def Client.minPending (c : Client) : Option Nat := (c.pending.map Frame.seq).min?

def Client.maxPending (c : Client) : Option Nat := (c.pending.map Frame.seq).max?

/-- `self.pending[f.seq] = f` before the snapshot, without growing past the limit. -/
def Client.buffer (c : Client) (f : Frame) : Client :=
  let c := { c with pending := upsert Frame.seq (fun _ r => r) c.pending f }
  if MAX_PENDING < c.pending.length then
    match c.minPending with
    | some m => { c with pending := erase Frame.seq m c.pending }
    | none => c
  else c

/-- A frame of a number after the expected one. -/
def Client.hold (c : Client) (f : Frame) (viaRetrans : Bool) (e : Nat) (t : ℚ) : Client :=
  match lookup Frame.seq f.seq c.pending with
  | some _ => { c with stats := { c.stats with duplicates := c.stats.duplicates + 1 } }
  | none =>
    let pending := upsert Frame.seq (fun _ r => r) c.pending f
    Client.seeGap
      { c with
        pending
        stats := { c.stats with
          maxPending := max c.stats.maxPending pending.length
          reordered := c.stats.reordered + (if viaRetrans then 0 else 1) }
        held := c.held ++ [f] } e t

/-- `_observe`, with its two readings of the clock. -/
def Client.observe (delay : ℚ) (c : Client) (f : Frame) (viaRetrans : Bool) (t now : ℚ) : Client :=
  match c.expected with
  | none => c.buffer f
  | some e =>
    if f.seq < e then { c with stats := { c.stats with duplicates := c.stats.duplicates + 1 } }
    else if f.seq = e then (Client.deliver { c with expected := some (e + 1) } f).drain
    else (c.hold f viaRetrans e t).requestMissing delay now f.seq

/-! ## The recovery channel -/

inductive Tcp
  | snapshotFrame (msgType : MsgType) (payload : List UInt8)
  | snapshotMeta (m : SnapshotMeta)
  | ack (a : Ack)
  | frame (f : Frame)
  deriving DecidableEq

def Client.onSnapshot (delay : ℚ) (c : Client) (m : SnapshotMeta) (now : ℚ) : Client :=
  let pending := c.pending.filter fun f => m.nextSeq ≤ f.seq
  let c :=
    ({ c with
      snapshotMeta := some m
      expected := some m.nextSeq
      pending
      stats := { c.stats with
        discardedBeforeSnapshot := c.stats.discardedBeforeSnapshot + (c.pending.length - pending.length) }
      held := c.held ++ pending } : Client).drain
  match c.minPending with
  | some s => c.requestMissing delay now s
  | none => c

/-- A range that cannot be recovered: it is counted, and `expected` goes past it. -/
def Client.skipTo (c : Client) (e oldest : Nat) : Client :=
  Client.drain
    { c with
      stats := { c.stats with unrecoverable := c.stats.unrecoverable + (oldest - e) }
      gapSeenAt := c.gapSeenAt.filter fun g => oldest ≤ g.1
      expected := some oldest
      passed := c.passed ++ List.replicate (oldest - e) none }

def Client.onAck (c : Client) (a : Ack) : Client :=
  let c := { c with
    outstanding := erase Prod.fst (a.fromSeq, a.toSeq) c.outstanding
    stats := { c.stats with retransFrames := c.stats.retransFrames + a.sent } }
  match c.expected with
  | none => c
  | some e => if a.unavailable ≠ 0 ∧ e < a.oldestAvailable then c.skipTo e a.oldestAvailable else c

def Client.onTcp (delay : ℚ) (c : Client) (x : Tcp) (t now : ℚ) : Client :=
  match x with
  | .snapshotFrame _ _ => { c with stats := { c.stats with snapshotFrames := c.stats.snapshotFrames + 1 } }
  | .snapshotMeta m => c.onSnapshot delay m now
  | .ack a => c.onAck a
  | .frame f => c.observe delay f true t now

/-- The end of each turn of `run`: ask for what is missing below the last frame held. -/
def Client.tick (delay : ℚ) (c : Client) (now : ℚ) : Client :=
  match c.expected, c.maxPending with
  | some _, some s => c.requestMissing delay now s
  | _, _ => c

end Mcast

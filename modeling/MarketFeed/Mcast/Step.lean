import MarketFeed.Lib.Run
import MarketFeed.Mcast.Client
/-!
# Publisher, network and subscriber (mcast_publisher.cpp, mcast_client.py)

A step is one frame handled on one side. The network may bring any frame published so far, at any time,
any number of times (`udp`), or never. The recovery channel is in order: the server reads the oldest
request and appends its answer to `stream`, the subscriber takes the oldest part of `stream`. A server may
send any frames of the ring, then any acknowledgement; `Publisher.reply` is what the publisher sends.
-/

namespace Mcast

structure State where
  pub : Publisher
  client : Client
  stream : List Tcp

def State.init (size : Nat) : State := ⟨.new size, .new, []⟩

inductive Label
  | publish (msgType : MsgType) (payload : List UInt8)
  | udp (seq : Nat) (t now : ℚ)
  | snapshot (latest : List (MsgType × List UInt8)) (tsNs : Nat)
  | answer (seqs : List Nat) (a : Ack)
  | tcp (t now : ℚ)
  | tick (now : ℚ)

/-- The frames of the ring at these numbers. -/
def Publisher.frames (p : Publisher) (seqs : List Nat) : List Frame := seqs.filterMap fun n => p.slots (n % p.size)

def snapshotStream (p : Publisher) (latest : List (MsgType × List UInt8)) (tsNs : Nat) : List Tcp :=
  latest.map (fun x => .snapshotFrame x.1 x.2) ++ [.snapshotMeta ⟨latest.length, tsNs, p.seq⟩]

def answerStream (p : Publisher) (seqs : List Nat) (a : Ack) : List Tcp :=
  (p.frames seqs).map .frame ++ [.ack a]

def step (delay : ℚ) (w : State) : Label → Option State
  | .publish msgType payload => some { w with pub := w.pub.publish msgType payload }
  | .udp seq t now => w.pub.log[seq]?.map fun f => { w with client := w.client.observe delay f false t now }
  | .snapshot latest tsNs =>
    match w.client.sent with
    | .subscribe :: rest =>
      some { w with client := { w.client with sent := rest }, stream := w.stream ++ snapshotStream w.pub latest tsNs }
    | _ => none
  | .answer seqs a =>
    match w.client.sent with
    | .retrans _ _ :: rest =>
      if ∀ n ∈ seqs, w.pub.oldest ≤ n ∧ n < w.pub.seq then
        some { w with client := { w.client with sent := rest }, stream := w.stream ++ answerStream w.pub seqs a }
      else none
    | _ => none
  | .tcp t now =>
    match w.stream with
    | x :: rest => some { w with client := w.client.onTcp delay x t now, stream := rest }
    | [] => none
  | .tick now => some { w with client := w.client.tick delay now }

/-- What the publisher answers to `MSG_RETRANS`. -/
def Publisher.reply (p : Publisher) (lo hi : Nat) : Label := .answer (p.retransSeqs lo hi) (p.ack lo hi)

/-- The publisher's answer is one the server may give. -/
theorem step_reply {delay : ℚ} {w : State} {lo hi : Nat} {rest : List Request}
    (h : w.client.sent = .retrans lo hi :: rest) :
    step delay w (w.pub.reply lo hi) =
      some { w with
        client := { w.client with sent := rest }
        stream := w.stream ++ answerStream w.pub (w.pub.retransSeqs lo hi) (w.pub.ack lo hi) } := by
  simp only [step, Publisher.reply, h]
  exact if_pos fun n hn => mem_retransSeqs hn

end Mcast

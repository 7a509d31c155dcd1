import Mathlib.Algebra.Group.Nat.Defs
import Mathlib.Logic.Function.Basic
import Mathlib.Data.List.Basic
import Mathlib.Tactic.Common
/-!
# The multicast publisher (mcast_publisher.cpp:184-193, :263-285)

| here | there |
| --- | --- |
| `Frame` | a frame of the channel; the bus carries heartbeats, trades, books and signals, all with flags 0 |
| `Publisher.slots` | `ring_`, the frame encoded last for each `seq % ring_.size()` |
| `Publisher.publish` | `on_frame`: the channel's number, the ring |
| `Publisher.retransSeqs`, `Publisher.ack` | the loop and the acknowledgement of `MSG_RETRANS` |
| `log` | every frame so far, at its number |

A frame leaves in a datagram some time after `on_frame`; what the network does to datagrams is in
`Mcast.Step`. Sequence numbers stay below 2 ^ 64; the arithmetic on the numbers of a request wraps.
-/

namespace Mcast

inductive MsgType
  | heartbeat
  | trade
  | book
  | signal
  deriving DecidableEq

structure Frame where
  msgType : MsgType
  seq : Nat
  payload : List UInt8
  deriving DecidableEq

structure Ack where
  fromSeq : Nat
  toSeq : Nat
  sent : Nat
  unavailable : Nat
  oldestAvailable : Nat
  nextSeq : Nat
  deriving DecidableEq

structure Publisher where
  size : Nat
  slots : Nat → Option Frame
  seq : Nat
  log : List Frame

def Publisher.new (size : Nat) : Publisher := ⟨size, fun _ => none, 0, []⟩

def Publisher.publish (p : Publisher) (msgType : MsgType) (payload : List UInt8) : Publisher :=
  let f : Frame := ⟨msgType, p.seq, payload⟩
  { p with slots := Function.update p.slots (p.seq % p.size) (some f), seq := p.seq + 1, log := p.log ++ [f] }

def Publisher.oldest (p : Publisher) : Nat := if p.size < p.seq then p.seq - p.size else 0

/-- The last number of a request, after both limits. -/
def Publisher.clampTo (p : Publisher) (lo hi : Nat) : Nat :=
  let last := if p.seq ≤ hi then (if p.seq ≠ 0 then p.seq - 1 else 0) else hi
  if 10000 < (last + 2 ^ 64 - lo + 1) % 2 ^ 64 then (lo + 9999) % 2 ^ 64 else last

/-- The numbers sent again for a request. -/
def Publisher.retransSeqs (p : Publisher) (lo hi : Nat) : List Nat :=
  (List.range' (max lo p.oldest) (p.clampTo lo hi + 1 - max lo p.oldest)).filter (· < p.seq)

def Publisher.ack (p : Publisher) (lo hi : Nat) : Ack where
  fromSeq := lo
  toSeq := p.clampTo lo hi
  sent := (p.retransSeqs lo hi).length
  unavailable := if lo < p.oldest then (min p.oldest ((p.clampTo lo hi + 1) % 2 ^ 64) + 2 ^ 64 - lo) % 2 ^ 64 else 0
  oldestAvailable := p.oldest
  nextSeq := p.seq

theorem oldest_eq (p : Publisher) : p.oldest = p.seq - p.size := by
  unfold Publisher.oldest
  split <;> omega

/-! ## The ring holds the last frames -/

structure Publisher.Ok (p : Publisher) : Prop where
  length : p.log.length = p.seq
  numbered : ∀ (n : Nat) f, p.log[n]? = some f → f.seq = n
  ring : ∀ n, p.oldest ≤ n → n < p.seq → p.slots (n % p.size) = p.log[n]?

theorem new_ok (size : Nat) : (Publisher.new size).Ok where
  length := rfl
  numbered := fun n f h => by simp [Publisher.new] at h
  ring := fun n _ h => absurd h (Nat.not_lt_zero n)

theorem publish_ok {p : Publisher} (h : p.Ok) (msgType : MsgType) (payload : List UInt8) :
    (p.publish msgType payload).Ok := by
  have hlen := h.length
  refine ⟨by simp [Publisher.publish, hlen], ?_, ?_⟩
  · intro n f hf
    simp only [Publisher.publish] at hf
    by_cases hn : n < p.seq
    · rw [List.getElem?_append_left (by omega)] at hf
      exact h.numbered n f hf
    · have hle := (List.getElem?_eq_some_iff.1 hf).1
      rw [List.length_append, List.length_singleton] at hle
      have hnp : n = p.log.length := by omega
      rw [hnp, List.getElem?_concat_length] at hf
      cases hf
      exact hlen.symm.trans hnp.symm
  · intro n hold hn
    have hold' : p.oldest ≤ n := by
      rw [oldest_eq] at hold ⊢
      simp only [Publisher.publish] at hold
      omega
    simp only [Publisher.publish] at hn ⊢
    by_cases heq : n = p.seq
    · rw [heq, Function.update_self, ← hlen, List.getElem?_concat_length]
    · have hlt : n < p.seq := by omega
      have hmod : n % p.size ≠ p.seq % p.size := by
        -- two numbers less than a ring apart are in different slots
        intro he
        have hwin : p.seq < n + p.size := by
          rw [oldest_eq] at hold
          simp only [Publisher.publish] at hold
          omega
        have hd : p.size ∣ p.seq - n := Nat.dvd_of_mod_eq_zero (Nat.sub_mod_eq_zero_of_mod_eq he.symm)
        exact absurd (Nat.le_of_dvd (by omega) hd) (by omega)
      rw [Function.update_of_ne hmod, h.ring n hold' hlt, List.getElem?_append_left (by omega)]

/-- Only numbers still in the ring are sent again. -/
theorem mem_retransSeqs {p : Publisher} {lo hi n : Nat} (h : n ∈ p.retransSeqs lo hi) : p.oldest ≤ n ∧ n < p.seq := by
  obtain ⟨hr, hlt⟩ := List.mem_filter.1 h
  have := List.mem_range'_1.1 hr
  exact ⟨by omega, by simpa using hlt⟩

end Mcast

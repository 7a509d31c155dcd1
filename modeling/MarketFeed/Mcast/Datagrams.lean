import MarketFeed.Lib.Run
import MarketFeed.Protocol.Segments
/-!
# The datagrams of the group (mcast_client.py:210-214)

`_on_udp` feeds every datagram to the one parser of the socket and hands each frame that comes out to
`_observe`. The comment there says that no frame crosses the border of a datagram; the parser does not know of
borders, and what a datagram leaves in its buffer is read together with the next one.

| here | there |
| --- | --- |
| `observe` | `_observe(f, via_retrans=False)`, on any state `σ` of the sequence logic |
| `Udp.handed` | not in the source: each datagram, with the frames handed on while it was processed |

`frames_handed` says when the frames of a well-formed datagram come out with it.
-/

namespace Mcast.Datagrams

open Mdfp
open Gateway (Bytes)

variable {σ : Type}

structure Udp (σ : Type) where
  parser : FrameParser
  datagrams : ℕ
  bytesIn : ℕ
  client : σ
  handed : List (Bytes × List Mdfp.Frame)

def Udp.new (client : σ) : Udp σ := ⟨.init, 0, 0, client, []⟩

/-- `_on_udp`. -/
def onUdp (observe : σ → Mdfp.Frame → σ) (u : Udp σ) (data : Bytes) : Option (Udp σ) :=
  let r := FrameParser.drain { u.parser with buf := u.parser.buf ++ data }
  some { parser := r.2
         datagrams := u.datagrams + 1
         bytesIn := u.bytesIn + data.length
         client := r.1.foldl observe u.client
         handed := u.handed ++ [(data, r.1)] }

/-- The frames of every well-formed datagram have been handed on, in their order, with the datagram. -/
def AllHanded (u : Udp σ) : Prop := ∀ p ∈ u.handed, ∀ fs, encodeAll fs = .ok p.1 → ∃ stale, p.2 = stale ++ fs

/-- A well-formed datagram meets a parser that gets through what it still holds. -/
def Clear (u : Udp σ) (data : Bytes) : Prop := ∀ fs, encodeAll fs = .ok data → fs ≠ [] →
    reader.Through data u.parser.buf

/-- **One datagram.** Its frames come out where the parser gets through the rest of the earlier ones. -/
theorem handed_of_through {b data : Bytes} (h : reader.Through data b)
    {fs : List Mdfp.Frame} (hfs : encodeAll fs = .ok data) :
    ∃ stale, framesOf (b ++ data) = stale ++ fs := by
  obtain ⟨hle, rfl⟩ := encodeAll_some hfs
  obtain ⟨es, hread⟩ := Scan.read_through reader h
  have hall := (framesOf_all hle []).1
  rw [framesOf_nil, List.append_nil, List.append_nil, framesOf] at hall
  exact ⟨frames es, by rw [framesOf, hread, frames_append, hall]⟩

theorem allHanded_step (observe : σ → Mdfp.Frame → σ) {u u' : Udp σ} {data : Bytes} (h : AllHanded u)
    (hclear : Clear u data)
    (hst : onUdp observe u data = some u') : AllHanded u' := by
  cases hst
  intro p hp fs hfs
  rcases List.mem_append.1 hp with hp | hp
  · exact h p hp fs hfs
  · cases List.mem_singleton.1 hp
    by_cases hnil : fs = []
    · exact ⟨_, by rw [hnil, List.append_nil]⟩
    · rw [FrameParser.drain_frames]
      exact handed_of_through (hclear fs hfs hnil) hfs

/-- **The frames of well-formed datagrams**, whatever came before them: they are handed on with their datagrams in
every run in which the parser gets through what it still holds whenever a well-formed one arrives. -/
theorem frames_handed (observe : σ → Mdfp.Frame → σ) (client : σ) (datagrams : List Bytes) (u : Udp σ)
    (h : Lts.Run (onUdp observe) Clear (.new client) datagrams u) : AllHanded u :=
  h.invariant (I := AllHanded) nofun fun _ _ _ hs hclear hst => allHanded_step observe hs hclear hst

/-- A heartbeat. -/
def beat : Mdfp.Frame := ⟨1, 1, 0, [0, 0, 0, 0, 0, 0, 0, 7]⟩

/-- Three foreign bytes, then a heartbeat. -/
theorem frames_handed_foreign : ∃ u : Udp (List Mdfp.Frame), Lts.Run (onUdp fun fs f => fs ++ [f]) Clear (.new [])
    [[1, 2, 3], beat.bytes] u ∧
    AllHanded u := by
  have hfirst : FrameParser.drain ⟨[1, 2, 3], 0, 0⟩ = ([], ⟨[1, 2, 3], 0, 0⟩) :=
    FrameParser.drain_wait (by decide +kernel)
  have hthrough : reader.Through beat.bytes [1, 2, 3] := by
    refine .take (o := none) (n := 1) ?_ (by decide)
      (.take (o := none) (n := 1) ?_ (by decide) (.take (o := none) (n := 1) ?_ (by decide) .done)) <;>
      exact by decide +kernel
  have hrun : ∃ u : Udp (List Mdfp.Frame), Lts.Run (onUdp fun fs f => fs ++ [f]) Clear (.new [])
      [[1, 2, 3], beat.bytes] u := by
    refine ⟨_, .cons (fun _ _ _ => .done) rfl (.cons (fun _ _ _ => ?_) rfl (.nil _))⟩
    show reader.Through beat.bytes (FrameParser.drain ⟨[1, 2, 3], 0, 0⟩).2.buf
    rw [hfirst]
    exact hthrough
  obtain ⟨u, hrun⟩ := hrun
  exact ⟨u, hrun, frames_handed _ [] _ u hrun⟩

/-- The header of a frame of a thousand bytes. -/
def cutHeader : Bytes := beat.body.take 16 ++ [0, 0, 3, 232]

/-- **A truncated datagram swallows the next one**: the parser waits for a thousand bytes, and the heartbeat is not
handed on. -/
theorem heartbeat_held_back : ∃ u : Udp (List Mdfp.Frame), Lts.Run (onUdp fun fs f => fs ++ [f]) Lts.anyStep (.new [])
    [cutHeader, beat.bytes] u ∧
    encodeAll [beat] = .ok beat.bytes ∧ u.handed = [(cutHeader, []), (beat.bytes, [])] ∧ ¬ AllHanded u := by
  have hfirst : FrameParser.drain ⟨cutHeader, 0, 0⟩ = ([], ⟨cutHeader, 0, 0⟩) :=
    FrameParser.drain_wait (by decide +kernel)
  have hnext : FrameParser.drain ⟨cutHeader ++ beat.bytes, 0, 0⟩ = ([], ⟨cutHeader ++ beat.bytes, 0, 0⟩) :=
    FrameParser.drain_wait (by decide +kernel)
  have hbeat : encodeAll [beat] = .ok beat.bytes := by
    have hall := @encodeAll_ok [beat] (by decide)
    rwa [List.map_singleton, List.flatten_singleton] at hall
  have hhanded : ∀ u : Udp (List Mdfp.Frame), (onUdp (fun fs f => fs ++ [f]) (.new []) cutHeader).bind
      (onUdp (fun fs f => fs ++ [f]) · beat.bytes) = some u →
      u.handed = [(cutHeader, []), (beat.bytes, [])] := by
    rintro u hu
    simp only [onUdp, Udp.new, FrameParser.init, List.nil_append, hfirst, Option.bind_some, hnext] at hu
    cases hu
    rfl
  refine ⟨_, .cons trivial rfl (.cons trivial rfl (.nil _)), hbeat, hhanded _ rfl, fun hall => ?_⟩
  obtain ⟨stale, hstale⟩ := hall (beat.bytes, []) (by rw [hhanded _ rfl]; simp) [beat] hbeat
  simp at hstale

end Mcast.Datagrams

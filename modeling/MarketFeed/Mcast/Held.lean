import MarketFeed.Mcast.Recovery
/-!
# Frames held out of order (mcast_client.py:125-148, :189-207)

A frame after a gap waits in `pending`. An acknowledgement that reports an unavailable range moves
`expected` to the publisher's oldest frame, past whatever is held below it: `State.clear` says of an
acknowledgement that nothing is.
-/

namespace Mcast

open Keyed Lts

/-- The frame waits at its number, or has been delivered at it. -/
structure Client.Keeps (c : Client) (f : Frame) (e : Nat) : Prop where
  start : c.start ≤ f.seq
  waits : e ≤ f.seq → lookup Frame.seq f.seq c.pending = some f
  passed : f.seq < e → c.passed[f.seq - c.start]? = some (some f)

structure Client.Held (c : Client) : Prop where
  fresh : c.expected = none → c.held = []
  keeps : ∀ e, c.expected = some e → ∀ f ∈ c.held, c.Keeps f e

section

variable {log : List Frame} {c c' : Client} {delay : ℚ}

theorem Genuine.eq {f g : Frame} (hf : Genuine log f) (hg : Genuine log g) (h : f.seq = g.seq) : f = g := by
  unfold Genuine at hf hg
  rw [h, hg] at hf
  exact (Option.some.inj hf).symm

/-- A dict of genuine frames has each of its frames at its number. -/
theorem lookup_of_genuine {pending : List Frame} (hp : ∀ g ∈ pending, Genuine log g) {f : Frame} (hf : f ∈ pending) :
    lookup Frame.seq f.seq pending = some f := by
  obtain ⟨g, hg⟩ := Option.isSome_iff_exists.1 (@lookup_isSome_of_mem _ _ _ Frame.seq _ _ hf)
  rw [hg, (hp g (mem_of_lookup hg)).eq (hp f hf) (key_of_lookup hg)]

theorem SameBooks.heldOk (h : SameBooks c c') (hc : c.Held) : c'.Held := by
  have hs : c'.start = c.start := congrArg (fun m => m.elim 0 SnapshotMeta.nextSeq) h.snapshotMeta
  constructor
  · rw [h.expected, h.held]
    exact hc.fresh
  · intro e he f hf
    rw [h.expected] at he
    rw [h.held] at hf
    have hk := hc.keeps e he f hf
    exact ⟨by rw [hs]; exact hk.start, by rw [h.pending]; exact hk.waits, by rw [hs, h.passed]; exact hk.passed⟩

/-- The expected frame is delivered, and leaves the dict if it was there. -/
theorem Client.Held.advance (h : c.Held) (hc : c.Ok log) {e : Nat} (he : c.expected = some e) {f : Frame}
    (hf : Genuine log f) (hs : f.seq = e) {pending : List Frame}
    (hp : ∀ n, n ≠ e → lookup Frame.seq n pending = lookup Frame.seq n c.pending) (gapSeenAt : List (Nat × ℚ)) :
    (Client.deliver { c with gapSeenAt, pending, expected := some (e + 1) } f).Held := by
  have hlen := hc.expected e he
  refine ⟨fun hn => (by cases hn), ?_⟩
  intro e' he' g hg
  cases he'
  have hk := h.keeps e he g hg
  refine ⟨hk.start, ?_, ?_⟩
  · intro hle
    show lookup Frame.seq g.seq pending = some g
    rw [hp g.seq (by omega)]
    exact hk.waits (by omega)
  · intro hlt
    show (c.passed ++ [some f])[g.seq - c.start]? = some (some g)
    by_cases hge : g.seq = e
    · -- the frame held at the expected number is the one delivered
      have hmem := mem_of_lookup (hk.waits (by omega))
      rw [show g.seq - c.start = c.passed.length by omega, List.getElem?_concat_length,
        hf.eq (hc.pending g hmem) (hs.trans hge.symm)]
    · have hlt' : g.seq < e := by omega
      have hstart := hk.start
      rw [List.getElem?_append_left (by omega)]
      exact hk.passed hlt'

theorem Client.Held.drain (h : c.Held) (hc : c.Ok log) : c.drain.Held := by
  refine (drainPending_keeps (P := fun c => c.Ok log ∧ c.Held) ?_ _ ⟨hc, h⟩).2
  rintro c e f ⟨hc, h⟩ he hf
  have hg := hc.pending f (mem_of_lookup hf)
  have hs := key_of_lookup hf
  refine ⟨hc.advance he hg hs (fun g hg => (List.mem_filter.1 hg).1) _, h.advance hc he hg hs ?_ _⟩
  intro n hn
  rw [lookup_erase, if_neg hn]

theorem Client.Held.hold (h : c.Held) (hc : c.Ok log) {f : Frame} (viaRetrans : Bool) {e : Nat}
    (he : c.expected = some e) (hlt : e < f.seq) (t : ℚ) : (c.hold f viaRetrans e t).Held := by
  unfold Client.hold
  split
  · exact ⟨h.fresh, fun e' he' g hg =>
      ⟨(h.keeps e' he' g hg).start, (h.keeps e' he' g hg).waits, (h.keeps e' he' g hg).passed⟩⟩
  · rename_i hnew
    apply (seeGap_same _ e t).heldOk
    have hstart : c.start ≤ e := by have := hc.expected e he; omega
    refine ⟨fun hn => (by rw [show c.expected = none from hn] at he; cases he), ?_⟩
    intro e' he' g hg
    rw [show c.expected = some e' from he'] at he
    cases he
    have hup : ∀ n, lookup Frame.seq n (upsert Frame.seq (fun _ r => r) c.pending f) =
        if f.seq = n then some f else lookup Frame.seq n c.pending := by
      intro n
      rw [lookup_upsert (fun _ _ _ => rfl)]
      split
      · split <;> rfl
      · rfl
    rcases List.mem_append.1 hg with hg | hg
    · have hk := h.keeps e he' g hg
      refine ⟨hk.start, ?_, hk.passed⟩
      intro hle
      show lookup Frame.seq g.seq (upsert Frame.seq (fun _ r => r) c.pending f) = some g
      have hw := hk.waits hle
      have hne : f.seq ≠ g.seq := by
        intro heq
        rw [← heq, hnew] at hw
        cases hw
      rw [hup, if_neg hne]
      exact hw
    · rw [List.mem_singleton.1 hg]
      refine ⟨by show c.start ≤ f.seq; omega, ?_, fun hl => by omega⟩
      intro _
      show lookup Frame.seq f.seq (upsert Frame.seq (fun _ r => r) c.pending f) = some f
      rw [hup, if_pos rfl]

theorem Client.Held.observe (h : c.Held) (hc : c.Ok log) {f : Frame} (hf : Genuine log f) (viaRetrans : Bool)
    (t now : ℚ) :
    (c.observe delay f viaRetrans t now).Held := by
  unfold Client.observe
  split
  · rename_i hn
    have hheld : (c.buffer f).held = c.held ∧ (c.buffer f).expected = c.expected := by
      unfold Client.buffer
      simp only
      split
      · split <;> exact ⟨rfl, rfl⟩
      · exact ⟨rfl, rfl⟩
    constructor
    · intro _
      rw [hheld.1]
      exact h.fresh hn
    · intro e he
      rw [hheld.2, hn] at he
      cases he
  · rename_i e he
    split
    · exact ⟨h.fresh, fun e' he' g hg =>
        ⟨(h.keeps e' he' g hg).start, (h.keeps e' he' g hg).waits, (h.keeps e' he' g hg).passed⟩⟩
    · rename_i hge
      split
      · rename_i hs
        exact (h.advance hc he hf hs (fun _ _ => rfl) c.gapSeenAt).drain
          (hc.advance he hf hs (fun g hg => hg) c.gapSeenAt)
      · exact (requestMissing_same _ now f.seq).heldOk (h.hold hc viaRetrans he (by omega) t)

theorem Client.Held.onSnapshot (h : c.Held) (hc : c.Ok log) (hn : c.expected = none) (m : SnapshotMeta) (now : ℚ) :
    (c.onSnapshot delay m now).Held := by
  have hheld := h.fresh hn
  have hp := hc.fresh hn
  have hpend : ∀ g ∈ c.pending.filter (fun f => decide (m.nextSeq ≤ f.seq)), Genuine log g :=
    fun g hg => hc.pending g (List.mem_filter.1 hg).1
  unfold Client.onSnapshot
  simp only
  have key : (Client.drain
      { c with
        snapshotMeta := some m
        expected := some m.nextSeq
        pending := c.pending.filter fun f => m.nextSeq ≤ f.seq
        stats := { c.stats with
          discardedBeforeSnapshot :=
            c.stats.discardedBeforeSnapshot +
              (c.pending.length - (c.pending.filter fun f => m.nextSeq ≤ f.seq).length) }
        held := c.held ++ c.pending.filter fun f => m.nextSeq ≤ f.seq }).Held := by
    refine @Client.Held.drain log _ ?_ (hc.atSnapshot hn m _ _)
    refine ⟨fun hn => (by cases hn), ?_⟩
    intro e he f hf
    cases he
    rw [hheld, List.nil_append] at hf
    have hle : m.nextSeq ≤ f.seq := by simpa using (List.mem_filter.1 hf).2
    exact ⟨hle, fun _ => lookup_of_genuine hpend hf, fun hlt => absurd hlt (by omega)⟩
  split
  · exact (requestMissing_same _ now _).heldOk key
  · exact key

/-- Past an unavailable range in which nothing is held. -/
theorem Client.Held.skipTo (h : c.Held) (hc : c.Ok log) {e oldest : Nat} (he : c.expected = some e) (hlt : e < oldest)
    (hclear : ∀ f ∈ c.pending, e ≤ f.seq → oldest ≤ f.seq) : (c.skipTo e oldest).Held := by
  have hlen := hc.expected e he
  refine @Client.Held.drain log _ ?_ (hc.overGap he hlt)
  refine ⟨fun hn => (by cases hn), ?_⟩
  intro e' he' f hf
  cases he'
  have hk := h.keeps e he f hf
  refine ⟨hk.start, fun hle => hk.waits (by omega), ?_⟩
  intro hfo
  by_cases hfe : e ≤ f.seq
  · have := hclear f (mem_of_lookup (hk.waits hfe)) hfe
    omega
  · have hstart := hk.start
    show (c.passed ++ List.replicate (oldest - e) none)[f.seq - c.start]? = some (some f)
    rw [List.getElem?_append_left (by omega)]
    exact hk.passed (by omega)

theorem Client.Held.onAck (h : c.Held) (hc : c.Ok log) (a : Ack)
    (hclear : ∀ e, c.expected = some e → a.unavailable ≠ 0 → ∀ f ∈ c.pending, e ≤ f.seq → a.oldestAvailable ≤ f.seq) :
    (c.onAck a).Held := by
  have h' : Client.Held { c with
      outstanding := erase Prod.fst (a.fromSeq, a.toSeq) c.outstanding
      stats := { c.stats with retransFrames := c.stats.retransFrames + a.sent } } :=
    ⟨h.fresh, fun e he f hf => ⟨(h.keeps e he f hf).start, (h.keeps e he f hf).waits, (h.keeps e he f hf).passed⟩⟩
  unfold Client.onAck
  simp only
  split
  · exact h'
  · rename_i e he
    split
    · rename_i hcond
      exact @Client.Held.skipTo log _ h'
        ⟨hc.pending, hc.passed, hc.expected, hc.fresh, hc.delivered, hc.counted⟩ _ _ he hcond.2 (hclear e he hcond.1)
    · exact h'

end

/-! ## The system -/

/-- An acknowledgement that reports an unavailable range finds no frame held in the range it skips. -/
def State.clear (w : State) : Label → Bool
  | .tcp _ _ => match w.stream, w.client.expected with
    | .ack a :: _, some e =>
      decide (a.unavailable = 0) || w.client.pending.all fun f =>
        !(decide (e ≤ f.seq) && decide (f.seq < a.oldestAvailable))
    | _, _ => true
  | _ => true

theorem held_step {delay : ℚ} {w w' : State} {l : Label} (hI : Inv w) (hH : w.client.Held) (hok : w.clear l = true)
    (h : step delay w l = some w') : w'.client.Held := by
  have hsame : ∀ (sent : List Request), Client.Held { w.client with sent } := fun sent =>
    ⟨hH.fresh, fun e he f hf => ⟨(hH.keeps e he f hf).start, (hH.keeps e he f hf).waits, (hH.keeps e he f hf).passed⟩⟩
  cases l with
  | publish msgType payload =>
    cases h
    exact hH
  | udp seq t now =>
    obtain ⟨f, hf, rfl⟩ := Option.map_eq_some_iff.1 h
    exact hH.observe hI.client (hI.pub.genuine hf) false t now
  | snapshot latest tsNs =>
    simp only [step] at h
    split at h
    · cases h
      exact hsame _
    · cases h
  | answer seqs a =>
    simp only [step] at h
    split at h
    · split at h
      · cases h
        exact hsame _
      · cases h
    · cases h
  | tcp t now =>
    simp only [step] at h
    split at h
    · rename_i x rest hs
      cases h
      cases x with
      | snapshotFrame msgType payload => exact ⟨hH.fresh, fun e he f hf =>
          ⟨(hH.keeps e he f hf).start, (hH.keeps e he f hf).waits, (hH.keeps e he f hf).passed⟩⟩
      | snapshotMeta m => exact hH.onSnapshot hI.client (hI.not_started hs) m now
      | ack a =>
        apply hH.onAck hI.client a
        intro e he hne f hf hle
        simp only [State.clear, hs, he, Bool.or_eq_true, decide_eq_true_eq, hne, false_or, List.all_eq_true] at hok
        have := hok f hf
        simp [hle] at this
        exact this
      | frame f =>
        exact hH.observe hI.client (hI.stream f (by rw [hs]; exact List.mem_cons_self)) true t now
    · cases h
  | tick now =>
    cases h
    show (w.client.tick delay now).Held
    unfold Client.tick
    split
    · exact (requestMissing_same w.client now _).heldOk hH
    · exact hH

/-- **No frame held is discarded**: in every run in which no acknowledgement skips a frame that is held, a frame once
held waits for its number, is delivered when its number is passed, and is never counted as unrecoverable. -/
theorem held_delivered {size : Nat} {delay : ℚ} {ls : List Label} {w : State}
    (h : Run (step delay) (fun w l => w.clear l = true) (.init size) ls w) {e : Nat} (he : w.client.expected = some e) :
    ∀ f ∈ w.client.held, (e ≤ f.seq → f ∈ w.client.pending) ∧ (f.seq < e → f ∈ w.client.delivered) ∧
      f.seq ∉ w.client.lost := by
  have hI : Inv w ∧ w.client.Held := by
    refine h.invariant (I := fun w => Inv w ∧ w.client.Held) ?_ ?_
    · exact ⟨inv_init size, fun _ => rfl, fun e he => (by cases he)⟩
    · intro w l w' hI hok hs
      exact ⟨inv_step hI.1 hs, held_step hI.1 hI.2 hok hs⟩
  intro f hf
  have hk := hI.2.keeps e he f hf
  refine ⟨fun hle => mem_of_lookup (hk.waits hle), fun hlt => Feed.mem_items.2 ⟨_, hk.passed hlt⟩, ?_⟩
  intro hlost
  obtain ⟨_, hnone⟩ := Feed.mem_holes.1 hlost
  by_cases hlt : f.seq < e
  · rw [hk.passed hlt] at hnone
    cases hnone
  · have hlen := hI.1.client.expected e he
    have hi := (List.getElem?_eq_some_iff.1 hnone).1
    omega

/-! ## Runs -/

theorem held_delivered_recovered :
    ∃ w e, Run (step GAP_FILL_DELAY_S) (fun w l => w.clear l = true) (.init 2) recoveredRun w ∧
      w.client.expected = some e ∧ w.client.held.map Frame.seq = [2, 1] ∧
      ∀ f ∈ w.client.held, (e ≤ f.seq → f ∈ w.client.pending) ∧ (f.seq < e → f ∈ w.client.delivered) ∧
        f.seq ∉ w.client.lost := by
  obtain ⟨w, h, he, hh⟩ : ∃ w, Run (step GAP_FILL_DELAY_S) (fun w l => w.clear l = true) (.init 2) recoveredRun w ∧
    w.client.expected = some 3 ∧ w.client.held.map Frame.seq = [2, 1] := exists_run (by decide +kernel)
  exact ⟨w, 3, h, he, hh, held_delivered h he⟩

/-- The publisher of the next run, when it reads the request. -/
def fourPublished : Publisher := (List.range 4).foldl (fun p i => p.publish .trade [UInt8.ofNat i]) (.new 2)

/-- A ring of two: the second of two trades arrives, the first is asked for when two more have pushed both out of the
ring, and the publisher answers. -/
def skippedRun : List Label :=
  published 2 ++ [.udp 1 1000 1000, .tick 1001, .publish .trade [2], .publish .trade [3], fourPublished.reply 0 0,
    .tcp 1002 1002]

/-- **A frame held is counted as unrecoverable**, and never delivered. -/
theorem held_skipped :
    ∃ w, Run (step GAP_FILL_DELAY_S) anyStep (.init 2) skippedRun w ∧ w.client.expected = some 2 ∧
      w.client.held.map Frame.seq = [1] ∧ w.client.delivered = [] ∧ 1 ∈ w.client.lost :=
  exists_run (by decide +kernel)

end Mcast

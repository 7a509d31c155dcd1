import MarketFeed.Bus.Publisher
import MarketFeed.Bus.Reconnect
import MarketFeed.Protocol.Sequence
/-!
# What a subscriber's tracker tells of its losses (services/feedd.py:65-76 and 303-308, bus.py:85-150,
protocol.py:95-181)

`feedd` numbers the frames, the bus drops the oldest of a full queue, and all that a subscriber sees of it are the
numbers of the frames that came. `loss_seen` is about the whole way: from the counter in `feedd` over the queue and the
bytes, however they are cut, to `lost_messages`.

| here | there |
| --- | --- |
| `Service.send` | `_publish`, and `heartbeat` in the loop that sends it: `encode`, `seq += 1`, `bus.publish`; the ring, the recorder and the snapshot are left out |
| `Act.move`, `Act.connect`, `Act.close` | what the publisher does on its own |
| `written` | what the publisher writes to a connection |
-/

namespace Bus.Delivery

open Mdfp
open Publisher (UDSPublisher Subscriber Fate fate Move)
open Gateway (Bytes)

structure Service where
  bus : UDSPublisher Frame
  seq : ℕ

inductive Act
  | connect
  | move (cid : ℕ) (m : Move)
  | close
  | send (msgType : UInt8) (payload : Bytes)

/-- A number or a payload that does not fit makes `encode` raise, before anything is done. -/
def Service.send (w : Service) (msgType : UInt8) (payload : Bytes) : Service :=
  if 2 ^ 64 ≤ w.seq then w
  else
    match encode msgType (UInt64.ofNat w.seq) payload 0 with
    | .error _ => w
    | .ok _ => { bus := w.bus.publish ⟨msgType, UInt64.ofNat w.seq, 0, payload⟩, seq := w.seq + 1 }

def Service.step (w : Service) : Act → Option Service
  | .connect => (w.bus.step .connect).map fun bus => { w with bus := bus }
  | .move cid m => (w.bus.step (.move cid m)).map fun bus => { w with bus := bus }
  | .close => (w.bus.step .close).map fun bus => { w with bus := bus }
  | .send msgType payload => some (w.send msgType payload)

def Service.start (queueSize : ℤ) (hasOnDrop : Bool) : Service := ⟨.new queueSize hasOnDrop, 0⟩

/-- The bytes written to the connection so far. -/
def written (s : Subscriber Frame) : Bytes := ((fate .written s.past).map Frame.bytes).flatten

def seqs (fs : List Frame) : List ℕ := fs.map fun f => f.seq.toNat

/-- `b` is what became of the frames of `past` from the first of `fs` to the last of them. -/
structure Between (past b : List (Fate × Frame)) (fs : List Frame) : Prop where
  part : ∃ a c, past = a ++ b ++ c ∧ fate .written a = []
  written : fate .written b = fs
  first : ∀ p ∈ b.head?, p.1 = .written
  last : ∀ p ∈ b.getLast?, p.1 = .written

/-! ## The numbers -/

/-- The frames published are numbered one after the other, from 0 on. -/
structure Numbered (w : Service) : Prop where
  inv : w.bus.Inv
  log : seqs w.bus.log = List.range w.seq
  fits : ∀ f ∈ w.bus.log, f.payload.length ≤ MAX_PAYLOAD

theorem Numbered.start (queueSize : ℤ) (hasOnDrop : Bool) : Numbered (.start queueSize hasOnDrop) :=
  ⟨UDSPublisher.inv_new queueSize hasOnDrop, rfl, nofun⟩

theorem Numbered.bus {w : Service} (h : Numbered w) {a : Publisher.Act Frame} {bus : UDSPublisher Frame}
    (hst : w.bus.step a = some bus)
    (hlog : bus.log = w.bus.log) : Numbered { w with bus := bus } :=
  ⟨h.inv.step hst, by simpa [hlog] using h.log, by simpa [hlog] using h.fits⟩

theorem Numbered.send {w : Service} (h : Numbered w) (msgType : UInt8) (payload : Bytes) :
    Numbered (w.send msgType payload) := by
  unfold Service.send
  split
  · exact h
  · rename_i hseq
    split
    · exact h
    · rename_i bytes hok
      have hfits : payload.length ≤ MAX_PAYLOAD := by
        by_contra hlong
        rw [encode, if_pos (Nat.not_le.1 hlong)] at hok
        cases hok
      have hnat : (UInt64.ofNat w.seq).toNat = w.seq := UInt64.toNat_ofNat_of_lt' (Nat.not_le.1 hseq)
      refine ⟨h.inv.step (a := .publish _) rfl, ?_, ?_⟩
      · have hlog := h.log
        simp only [seqs] at hlog
        simp [UDSPublisher.publish, seqs, hlog, hnat, List.range_succ]
      · intro f hf
        rcases List.mem_append.1 hf with hf | hf
        · exact h.fits f hf
        · cases List.mem_singleton.1 hf
          exact hfits

theorem Numbered.step {w w' : Service} (h : Numbered w) {a : Act} (hst : w.step a = some w') : Numbered w' := by
  cases a with
  | connect =>
    cases hst
    exact h.bus (a := .connect) rfl rfl
  | move cid m =>
    obtain ⟨bus, hbus, rfl⟩ := Option.map_eq_some_iff.1 hst
    refine h.bus hbus ?_
    obtain ⟨s, -, hs⟩ := Option.bind_eq_some_iff.1 hbus
    obtain ⟨s', -, rfl⟩ := Option.map_eq_some_iff.1 hs
    rfl
  | close =>
    cases hst
    exact h.bus (a := .close) rfl rfl
  | send msgType payload =>
    cases hst
    exact h.send msgType payload

theorem numbered_of_run {queueSize : ℤ} {hasOnDrop : Bool} {as : List Act} {w : Service}
    (h : Lts.Run Service.step Lts.anyStep (.start queueSize hasOnDrop) as w) : Numbered w :=
  h.invariant (.start queueSize hasOnDrop) fun _ _ _ hs _ hst => hs.step hst

/-- What became of a connection's frames: no number is missing. -/
theorem Numbered.past {w : Service} (h : Numbered w) {s : Subscriber Frame} (hs : s ∈ w.bus.subscribers) :
    seqs (s.past.map Prod.snd) = List.range' s.since s.past.length ∧
      ∀ f ∈ fate .written s.past, f.payload.length ≤ MAX_PAYLOAD := by
  have hfront : s.past.map Prod.snd <+: w.bus.log.drop s.since := (List.prefix_append _ _).trans (h.inv.kept s hs).past
  have hlen := hfront.length_le
  have hcount : w.bus.log.length = w.seq := by simpa [seqs] using congrArg List.length h.log
  refine ⟨?_, fun f hf => h.fits f (List.mem_of_mem_drop (hfront.subset ((Publisher.fate_sublist _ _).subset hf)))⟩
  rw [List.prefix_iff_eq_take.1 hfront, seqs, List.map_take, List.map_drop]
  have hlog := h.log
  rw [seqs] at hlog
  simp only [List.length_map, List.length_drop] at hlen ⊢
  rw [hlog, List.range_eq_range', List.drop_range', List.take_range'_of_length_ge (by omega)]
  simp

/-! ## The stretch between the first and the last -/

/-- Up to the last of the first `n` written. -/
theorem exists_upTo (past : List (Fate × Frame)) (n : ℕ) (hn : n ≤ (fate .written past).length) :
    ∃ b c, past = b ++ c ∧ fate .written b = (fate .written past).take n ∧ ∀ p ∈ b.getLast?, p.1 = .written := by
  induction past generalizing n with
  | nil => exact ⟨[], [], rfl, by simp, nofun⟩
  | cons p past ih =>
    obtain ⟨a, f⟩ := p
    cases n with
    | zero => exact ⟨[], (a, f) :: past, rfl, by simp, nofun⟩
    | succ n =>
      cases a with
      | written =>
        obtain ⟨b, c, rfl, hb, hlast⟩ := ih n (by simpa [fate] using hn)
        refine ⟨(.written, f) :: b, c, rfl, by simpa [fate] using hb, fun p hp => ?_⟩
        cases b with
        | nil =>
          cases hp
          rfl
        | cons q b => exact hlast p (by simpa using hp)
      | lost =>
        obtain ⟨b, c, rfl, hb, hlast⟩ := ih (n + 1) (by simpa [fate] using hn)
        refine ⟨(.lost, f) :: b, c, rfl, by simpa [fate] using hb, fun p hp => ?_⟩
        cases b with
        | nil =>
          have hne := congrArg List.length hb
          simp [fate] at hne hn
          omega
        | cons q b => exact hlast p (by simpa using hp)

theorem exists_between (past : List (Fate × Frame)) (n : ℕ) (hn : n ≤ (fate .written past).length) :
    ∃ b, Between past b ((fate .written past).take n) := by
  induction past with
  | nil => exact ⟨[], ⟨[], [], rfl, rfl⟩, by simp, nofun, nofun⟩
  | cons p past ih =>
    obtain ⟨a, f⟩ := p
    cases a with
    | lost =>
      obtain ⟨b, ⟨a, c, hpast, ha⟩, hb, hfirst, hlast⟩ := ih (by simpa [fate] using hn)
      exact ⟨b, ⟨(.lost, f) :: a, c, by rw [hpast]; rfl, by simpa [fate] using ha⟩, by simpa [fate] using hb,
        hfirst, hlast⟩
    | written =>
      obtain ⟨b, c, hpast, hb, hlast⟩ := exists_upTo ((.written, f) :: past) n hn
      refine ⟨b, ⟨[], c, by simpa using hpast, rfl⟩, hb, fun p hp => ?_, hlast⟩
      cases b with
      | nil => cases hp
      | cons q b =>
        cases hp
        have hq := congrArg List.head? hpast
        simp at hq
        simp [← hq]

/-! ## The tracker over it -/

/-- What the tracker says of the frames written of `b`, whose numbers go on from `k`: a loss is counted with the next
frame. -/
structure Seen (k : ℕ) (b : List (Fate × Frame)) (t : SequenceTracker) (e : ℕ) : Prop where
  expected : t.expected = some e
  le : e ≤ k + b.length
  late : t.duplicateCount = 0
  lost : t.lostMessages + (k + b.length - e) = (fate .lost b).length
  last : ∀ p ∈ b.getLast?, p.1 = .written → e = k + b.length

theorem Seen.observe {k : ℕ} {b : List (Fate × Frame)} {t : SequenceTracker} {e : ℕ} (h : Seen k b t e) {f : Frame}
    (hf : f.seq.toNat = k + b.length) : Seen k (b ++ [(.written, f)])
    (t.observe f.seq.toNat).1 (k + (b.length + 1)) := by
  have hle := h.le
  have hlost := h.lost
  have hlate := h.late
  unfold SequenceTracker.observe
  rw [h.expected]
  dsimp only
  split
  · refine ⟨?_, ?_, hlate, ?_, ?_⟩ <;> simp <;> omega
  · rw [if_neg (by omega)]
    refine ⟨?_, ?_, hlate, ?_, ?_⟩ <;> simp <;> omega

theorem seen {k : ℕ} {b : List (Fate × Frame)} (hb : seqs (b.map Prod.snd) = List.range' k b.length)
    (hfirst : ∀ p ∈ b.head?, p.1 = .written)
    (hne : b ≠ []) : ∃ e, Seen k b (SequenceTracker.track (seqs (fate .written b))) e := by
  induction b using List.reverseRecOn with
  | nil => exact absurd rfl hne
  | append_singleton b p ih =>
    obtain ⟨a, f⟩ := p
    have hsplit : seqs (b.map Prod.snd) = List.range' k b.length ∧ f.seq.toNat = k + b.length := by
      simp only [seqs, List.map_append, List.map_cons, List.map_nil, List.length_append, List.length_singleton] at hb
      rw [List.range'_concat] at hb
      have h := List.append_inj' hb rfl
      exact ⟨h.1, by simpa using h.2⟩
    obtain ⟨hb, hf⟩ := hsplit
    by_cases hnil : b = []
    · subst hnil
      obtain rfl : a = .written := hfirst (a, f) rfl
      refine ⟨k + 1, ?_, Nat.le_refl _, rfl, by simp [fate, seqs, SequenceTracker.track, SequenceTracker.observe,
        SequenceTracker.new],
        fun _ _ _ => rfl⟩
      simp [fate, seqs, SequenceTracker.track, SequenceTracker.observe, SequenceTracker.new, hf]
    · obtain ⟨e, he⟩ := ih hb (fun p hp => hfirst p (by simp [List.head?_append, Option.mem_def.1 hp])) hnil
      cases a with
      | written =>
        have htrack : SequenceTracker.track (seqs (fate .written (b ++ [(.written, f)]))) =
            ((SequenceTracker.track (seqs (fate .written b))).observe f.seq.toNat).1 := by
          rw [← SequenceTracker.track_concat]
          simp [seqs]
        rw [htrack]
        exact ⟨_, he.observe hf⟩
      | lost =>
        have hlost := he.lost
        have hle := he.le
        refine ⟨e, by simpa using he.expected, ?_, by simpa using he.late, ?_, by simp⟩
        · simp
          omega
        · simp
          omega

/-- **The losses of a stretch, seen from its end.** -/
theorem lost_between {k : ℕ} {past b : List (Fate × Frame)} {fs : List Frame}
    (hpast : seqs (past.map Prod.snd) = List.range' k past.length)
    (hb : Between past b fs) : (SequenceTracker.track (seqs fs)).lostMessages = (fate .lost b).length ∧
      (SequenceTracker.track (seqs fs)).duplicateCount = 0 := by
  obtain ⟨⟨a, c, rfl, -⟩, rfl, hfirst, hlast⟩ := hb
  by_cases hne : b = []
  · subst hne
    exact ⟨rfl, rfl⟩
  · have hseq : seqs (b.map Prod.snd) = List.range' (k + a.length) b.length := by
      have h := congrArg (fun l => (l.drop a.length).take b.length) hpast
      rw [List.drop_range', List.take_range'_of_length_ge (by simp)] at h
      simpa [seqs] using h
    obtain ⟨e, he⟩ := seen hseq hfirst hne
    have hlost := he.lost
    have hend := he.last _ (List.getLast?_eq_some_getLast hne) (hlast _ (List.getLast?_eq_some_getLast hne))
    exact ⟨by omega, he.late⟩

/-! ## The whole way -/

/-- **A subscriber's tracker counts the frames the bus dropped for it**, between the first frame that came and the
last, and nothing else, wherever the bytes are cut and however many have come. -/
theorem loss_seen (queueSize : ℤ) (hasOnDrop : Bool) (as : List Act) (w : Service)
    (h : Lts.Run Service.step Lts.anyStep (.start queueSize hasOnDrop) as w) (s : Subscriber Frame)
    (hs : s ∈ w.bus.subscribers)
    (ops : List Op) (hops : (Session.run ops).taken <+: written s) :
    ∃ b, Between s.past b (Session.run ops).finish.out ∧
      (SequenceTracker.track (seqs (Session.run ops).finish.out)).lostMessages = (fate .lost b).length ∧
      (SequenceTracker.track (seqs (Session.run ops).finish.out)).duplicateCount = 0 ∧
      ((Session.run ops).taken = written s → (Session.run ops).finish.out = fate .written s.past) := by
  obtain ⟨hpast, hfits⟩ := (numbered_of_run h).past hs
  have hout : (Session.run ops).finish.out = Reconnect.wholeFrames (fate .written s.past)
      (Session.run ops).taken.length := by
    have htaken : (Session.run ops).taken = (written s).take (Session.run ops).taken.length :=
      List.prefix_iff_eq_take.1 hops
    rw [(Session.finish_spec ops).1]
    conv_lhs => rw [htaken]
    exact (Reconnect.read_received hfits _).1
  have htake := List.prefix_iff_eq_take.1
    (Reconnect.wholeFrames_front (fate .written s.past) (Session.run ops).taken.length)
  obtain ⟨b, hb⟩ := exists_between s.past
    _ (Reconnect.wholeFrames_front (fate .written s.past) (Session.run ops).taken.length).length_le
  rw [← htake, ← hout] at hb
  refine ⟨b, hb, (lost_between hpast hb).1, (lost_between hpast hb).2, fun hall => ?_⟩
  have hframes := framesOf_all hfits []
  rw [(Session.finish_spec ops).1, hall, written]
  simpa using hframes.1

/-- A subscriber whose queue holds one frame: of three the second was dropped. -/
def slow : Subscriber Frame := ⟨true, some ⟨"anonymous", 1, 1⟩, .serving (some ⟨2, 2, 0, []⟩), [], 0,
  [(.written, ⟨1, 0, 0, []⟩), (.lost, ⟨1, 1, 0, [7]⟩), (.written, ⟨2, 2, 0, []⟩)]⟩

theorem loss_seen_once : ∃ w : Service, Lts.Run Service.step Lts.anyStep (.start 1 true)
      [.connect, .move 0 (.named none), .send 1 [], .move 0 .take, .send 1 [7], .send 2 [], .move 0 .drained,
        .move 0 .take] w ∧
    slow ∈ w.bus.subscribers ∧
    ∃ b, Between slow.past b (Session.run [.feed ((written slow).take 5), .next 0, .feed ((written slow).drop 5),
      .next 1]).finish.out ∧
      (SequenceTracker.track (seqs (Session.run [.feed ((written slow).take 5), .next 0,
        .feed ((written slow).drop 5), .next 1]).finish.out)).lostMessages =
        (fate .lost b).length := by
  have hex : ∃ w : Service, Lts.Run Service.step Lts.anyStep (.start 1 true)
      [.connect, .move 0 (.named none), .send 1 [], .move 0 .take, .send 1 [7], .send 2 [], .move 0 .drained,
        .move 0 .take] w ∧
      slow ∈ w.bus.subscribers := Lts.exists_run (by decide +kernel)
  obtain ⟨w, hw, hmem⟩ := hex
  have htaken : (Session.run [.feed ((written slow).take 5), .next 0, .feed ((written slow).drop 5), .next 1]).taken
      <+: written slow :=
    ⟨[], (List.append_nil _).trans (List.take_append_drop 5 (written slow))⟩
  obtain ⟨b, hb, hlost, -⟩ := loss_seen 1 true _ w hw slow hmem _ htaken
  exact ⟨w, hw, hmem, b, hb, hlost⟩

end Bus.Delivery

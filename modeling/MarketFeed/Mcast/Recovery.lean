import MarketFeed.Mcast.Step
/-!
# Order and accounting of the recovered feed (mcast_client.py:119-214)

What the subscriber hands on is a numbered feed from the snapshot's `next_seq` on (`Lib.Feed`): each
position is the publisher's frame of that number, or a number counted as unrecoverable.
-/

namespace Mcast

open Keyed Lts

/-- The frame is what the publisher gave its number. -/
def Genuine (log : List Frame) (f : Frame) : Prop := log[f.seq]? = some f

structure Client.Ok (log : List Frame) (c : Client) : Prop where
  pending : ∀ f ∈ c.pending, Genuine log f
  passed : ∀ (i : Nat) f, c.passed[i]? = some (some f) → f.seq = c.start + i ∧ Genuine log f
  expected : ∀ e, c.expected = some e → e = c.start + c.passed.length
  fresh : c.expected = none → c.passed = []
  delivered : c.stats.delivered = c.delivered.length
  counted : c.stats.delivered + c.stats.unrecoverable = c.passed.length

/-- The requests for missing frames, their timers and counters change nothing else. -/
structure SameBooks (c c' : Client) : Prop where
  expected : c'.expected = c.expected
  pending : c'.pending = c.pending
  snapshotMeta : c'.snapshotMeta = c.snapshotMeta
  passed : c'.passed = c.passed
  held : c'.held = c.held
  delivered : c'.stats.delivered = c.stats.delivered
  unrecoverable : c'.stats.unrecoverable = c.stats.unrecoverable
  sent : c'.sent.count .subscribe = c.sent.count .subscribe

section

variable {log : List Frame} {c c' : Client} {delay : ℚ}

theorem Genuine.append {f : Frame} (h : Genuine log f) (more : List Frame) : Genuine (log ++ more) f := by
  unfold Genuine at h ⊢
  rw [List.getElem?_append_left (List.getElem?_eq_some_iff.1 h).1]
  exact h

/-- What the publisher logged under a number is genuine. -/
theorem Publisher.Ok.genuine {p : Publisher} (hp : p.Ok) {n : Nat} {f : Frame} (hf : p.log[n]? = some f) :
    Genuine p.log f := by
  show p.log[f.seq]? = some f
  rw [hp.numbered n f hf]
  exact hf

/-- Neither the requests on their way nor the count of snapshot frames matter. -/
theorem Client.Ok.of_same (h : c.Ok log) (hpending : c'.pending = c.pending) (hmeta : c'.snapshotMeta = c.snapshotMeta)
    (hpassed : c'.passed = c.passed) (hexpected : c'.expected = c.expected)
    (hdelivered : c'.stats.delivered = c.stats.delivered)
    (hunrecoverable : c'.stats.unrecoverable = c.stats.unrecoverable) : c'.Ok log := by
  have hs : c'.start = c.start := congrArg (fun m => m.elim 0 SnapshotMeta.nextSeq) hmeta
  refine ⟨?_, ?_, ?_, ?_, ?_, ?_⟩
  · rw [hpending]
    exact h.pending
  · rw [hpassed, hs]
    exact h.passed
  · rw [hexpected, hpassed, hs]
    exact h.expected
  · rw [hexpected, hpassed]
    exact h.fresh
  · rw [hdelivered, Client.delivered, hpassed]
    exact h.delivered
  · rw [hdelivered, hunrecoverable, hpassed]
    exact h.counted

theorem Client.Ok.append (h : c.Ok log) (more : List Frame) : c.Ok (log ++ more) where
  pending := fun f hf => (h.pending f hf).append more
  passed := fun i f hf => ⟨(h.passed i f hf).1, (h.passed i f hf).2.append more⟩
  expected := h.expected
  fresh := h.fresh
  delivered := h.delivered
  counted := h.counted

/-! ## The loops -/

/-- What a turn of `_drain_pending` keeps, the loop keeps. -/
theorem drainPending_keeps {P : Client → Prop}
    (hstep : ∀ c e f, P c → c.expected = some e → lookup Frame.seq e c.pending = some f → P (c.take e f)) (n : Nat) :
    P c → P (c.drainPending n) := by
  induction n generalizing c with
  | zero => exact id
  | succ n ih =>
    intro h
    unfold Client.drainPending
    split
    · exact h
    · rename_i e he
      split
      · exact h
      · rename_i f hf
        exact ih (hstep c e f h he hf)

/-- The bound on the turns is enough: the loop ends because the expected frame is missing. -/
theorem drainPending_done (n : Nat) (h : c.pending.length ≤ n) {e : Nat} (he : (c.drainPending n).expected = some e) :
    lookup Frame.seq e (c.drainPending n).pending = none := by
  induction n generalizing c with
  | zero =>
    have hp : c.pending = [] := List.length_eq_zero_iff.1 (Nat.le_zero.1 h)
    show lookup Frame.seq e c.pending = none
    rw [hp]
    rfl
  | succ n ih =>
    cases he' : c.expected with
    | none => simp [Client.drainPending, he'] at he
    | some e' =>
      cases hf : lookup Frame.seq e' c.pending with
      | none =>
        simp only [Client.drainPending, he', hf] at he ⊢
        cases he
        exact hf
      | some f =>
        simp only [Client.drainPending, he', hf] at he ⊢
        refine ih ?_ he
        -- the frame taken leaves the dict
        have hlt : (erase Frame.seq e' c.pending).length < c.pending.length := by
          rw [erase]
          apply List.length_filter_lt_length_iff_exists.2
          exact ⟨f, mem_of_lookup hf, by simp [key_of_lookup hf]⟩
        show (erase Frame.seq e' c.pending).length ≤ n
        omega

theorem le_gapEnd (c : Client) (upto n hi : Nat) : hi ≤ c.gapEnd upto n hi := by
  induction n generalizing hi with
  | zero => exact Nat.le_refl hi
  | succ n ih =>
    unfold Client.gapEnd
    split
    · have := ih (hi + 1)
      omega
    · exact Nat.le_refl hi

/-- The bounds on the turns of `_request_missing` are enough: one more turn changes nothing. -/
theorem gapEnd_done (c : Client) {upto n hi : Nat} (h : upto - hi ≤ n + 1) :
    c.gapEnd upto (n + 1) hi = c.gapEnd upto n hi := by
  induction n generalizing hi with
  | zero =>
    have hlt : ¬hi + 1 < upto := by omega
    simp [Client.gapEnd, hlt]
  | succ n ih =>
    by_cases hc : hi + 1 < upto ∧ (lookup Frame.seq (hi + 1) c.pending).isNone
    · have h1 : c.gapEnd upto (n + 2) hi = c.gapEnd upto (n + 1) (hi + 1) := if_pos hc
      have h2 : c.gapEnd upto (n + 1) hi = c.gapEnd upto n (hi + 1) := if_pos hc
      rw [h1, h2]
      exact ih (by omega)
    · have h1 : c.gapEnd upto (n + 2) hi = hi := if_neg hc
      have h2 : c.gapEnd upto (n + 1) hi = hi := if_neg hc
      rw [h1, h2]

theorem requestFrom_done (now : ℚ) {upto n lo : Nat} (c : Client) (h : upto - lo ≤ n) :
    c.requestFrom delay now upto (n + 1) lo = c.requestFrom delay now upto n lo := by
  induction n generalizing c lo with
  | zero =>
    have hlt : ¬lo < upto := by omega
    simp [Client.requestFrom, hlt]
  | succ n ih =>
    have hturn : ∀ m, c.requestFrom delay now upto (m + 1) lo =
        if lo < upto then
          if (lookup Frame.seq lo c.pending).isSome then c.requestFrom delay now upto m (lo + 1)
          else
            Client.requestFrom delay now upto m
              (Client.requestGap delay now (c.seeGap lo now) lo (c.gapEnd upto (upto - lo) lo))
              (c.gapEnd upto (upto - lo) lo + 1)
        else c := fun _ => rfl
    rw [hturn (n + 1), hturn n]
    have hle := le_gapEnd c upto (upto - lo) lo
    rw [@ih (lo + 1) c (by omega), @ih (c.gapEnd upto (upto - lo) lo + 1) _ (by omega)]

theorem sameBooks_refl (c : Client) : SameBooks c c := ⟨rfl, rfl, rfl, rfl, rfl, rfl, rfl, rfl⟩

theorem SameBooks.trans {c'' : Client} (h : SameBooks c c') (h' : SameBooks c' c'') : SameBooks c c'' where
  expected := h'.expected.trans h.expected
  pending := h'.pending.trans h.pending
  snapshotMeta := h'.snapshotMeta.trans h.snapshotMeta
  passed := h'.passed.trans h.passed
  held := h'.held.trans h.held
  delivered := h'.delivered.trans h.delivered
  unrecoverable := h'.unrecoverable.trans h.unrecoverable
  sent := h'.sent.trans h.sent

theorem seeGap_same (c : Client) (seq : Nat) (now : ℚ) : SameBooks c (c.seeGap seq now) := by
  unfold Client.seeGap
  split
  · exact sameBooks_refl c
  · exact ⟨rfl, rfl, rfl, rfl, rfl, rfl, rfl, rfl⟩

theorem requestGap_same (c : Client) (now : ℚ) (lo hi : Nat) : SameBooks c (c.requestGap delay now lo hi) := by
  unfold Client.requestGap
  simp only
  split
  · exact sameBooks_refl c
  · split
    · exact ⟨rfl, rfl, rfl, rfl, rfl, rfl, rfl, by simp⟩
    · exact sameBooks_refl c

theorem requestFrom_same (now : ℚ) (upto n : Nat) (c : Client) (lo : Nat) :
    SameBooks c (c.requestFrom delay now upto n lo) := by
  induction n generalizing c lo with
  | zero => exact sameBooks_refl c
  | succ n ih =>
    unfold Client.requestFrom
    split
    · split
      · exact ih c (lo + 1)
      · exact ((seeGap_same c lo now).trans (requestGap_same _ now lo _)).trans (ih _ _)
    · exact sameBooks_refl c

theorem requestMissing_same (c : Client) (now : ℚ) (upto : Nat) : SameBooks c (c.requestMissing delay now upto) := by
  unfold Client.requestMissing
  split
  · exact sameBooks_refl c
  · exact requestFrom_same now upto _ c _

theorem SameBooks.ok (h : SameBooks c c') (hc : c.Ok log) : c'.Ok log :=
  hc.of_same h.pending h.snapshotMeta h.passed h.expected h.delivered h.unrecoverable

/-! ## Each function keeps the order -/

/-- The expected frame is delivered. -/
theorem Client.Ok.advance (h : c.Ok log) {e : Nat} (he : c.expected = some e) {f : Frame} (hf : Genuine log f)
    (hs : f.seq = e) {pending : List Frame} (hp : ∀ g ∈ pending, g ∈ c.pending) (gapSeenAt : List (Nat × ℚ)) :
    (Client.deliver { c with gapSeenAt, pending, expected := some (e + 1) } f).Ok log := by
  have hlen := h.expected e he
  refine ⟨fun g hg => h.pending g (hp g hg), ?_, ?_, fun hn => (by cases hn), ?_, ?_⟩
  · intro i g hg
    simp only [Client.deliver] at hg
    by_cases hi : i < c.passed.length
    · rw [List.getElem?_append_left hi] at hg
      exact h.passed i g hg
    · have hlt := (List.getElem?_eq_some_iff.1 hg).1
      rw [List.length_append, List.length_singleton] at hlt
      have hi : i = c.passed.length := by omega
      subst hi
      rw [List.getElem?_concat_length] at hg
      cases hg
      exact ⟨hs.trans hlen, hf⟩
  · intro e' he'
    cases he'
    show e + 1 = c.start + (c.passed ++ [some f]).length
    rw [List.length_append, List.length_singleton]
    omega
  · show c.stats.delivered + 1 = (Feed.items (c.passed ++ [some f])).length
    rw [Feed.items_append, List.length_append, h.delivered]
    rfl
  · show c.stats.delivered + 1 + c.stats.unrecoverable = (c.passed ++ [some f]).length
    rw [List.length_append, List.length_singleton, ← h.counted]
    omega

theorem Client.Ok.drain (h : c.Ok log) : c.drain.Ok log := by
  refine drainPending_keeps (P := fun c => c.Ok log) ?_ _ h
  intro c e f hc he hf
  exact hc.advance he (hc.pending f (mem_of_lookup hf)) (key_of_lookup hf) (fun g hg => (List.mem_filter.1 hg).1) _

theorem Client.Ok.setPending (h : c.Ok log) {pending : List Frame} (hp : ∀ g ∈ pending, Genuine log g)
    (held : List Frame) {stats : Stats} (hd : stats.delivered = c.stats.delivered)
    (hu : stats.unrecoverable = c.stats.unrecoverable) : Client.Ok log { c with pending, held, stats } where
  pending := hp
  passed := h.passed
  expected := h.expected
  fresh := h.fresh
  delivered := hd.trans h.delivered
  counted := by
    show stats.delivered + stats.unrecoverable = c.passed.length
    rw [hd, hu]
    exact h.counted

theorem genuine_upsert {f : Frame} (hf : Genuine log f) {pending : List Frame} (hp : ∀ g ∈ pending, Genuine log g) :
    ∀ g ∈ upsert Frame.seq (fun _ r => r) pending f, Genuine log g := by
  intro g hg
  rcases mem_upsert hg with hg | rfl | ⟨o, _, rfl⟩
  · exact hp g hg
  · exact hf
  · exact hf

theorem Client.Ok.buffer (h : c.Ok log) {f : Frame} (hf : Genuine log f) : (c.buffer f).Ok log := by
  have hup := genuine_upsert hf h.pending
  unfold Client.buffer
  simp only
  split
  · split
    · exact h.setPending (fun g hg => hup g (List.mem_filter.1 hg).1) _ rfl rfl
    · exact h.setPending hup _ rfl rfl
  · exact h.setPending hup _ rfl rfl

theorem Client.Ok.hold (h : c.Ok log) {f : Frame} (hf : Genuine log f) (viaRetrans : Bool) (e : Nat) (t : ℚ) :
    (c.hold f viaRetrans e t).Ok log := by
  unfold Client.hold
  split
  · exact h.setPending h.pending _ rfl rfl
  · exact (seeGap_same _ e t).ok (h.setPending (genuine_upsert hf h.pending) _ rfl rfl)

theorem Client.Ok.observe (h : c.Ok log) {f : Frame} (hf : Genuine log f) (viaRetrans : Bool) (t now : ℚ) :
    (c.observe delay f viaRetrans t now).Ok log := by
  unfold Client.observe
  split
  · exact h.buffer hf
  · rename_i e he
    split
    · exact h.setPending h.pending _ rfl rfl
    · split
      · rename_i hs
        exact (h.advance he hf hs (fun g hg => hg) c.gapSeenAt).drain
      · exact (requestMissing_same _ now f.seq).ok (h.hold hf viaRetrans e t)

/-- What the snapshot leaves, before the frames at hand are delivered. -/
theorem Client.Ok.atSnapshot (h : c.Ok log) (hn : c.expected = none) (m : SnapshotMeta) (discarded : Nat)
    (held : List Frame) :
    Client.Ok log { c with
      snapshotMeta := some m
      expected := some m.nextSeq
      pending := c.pending.filter fun f => m.nextSeq ≤ f.seq
      stats := { c.stats with discardedBeforeSnapshot := discarded }
      held } := by
  have hp := h.fresh hn
  refine ⟨fun f hf => h.pending f (List.mem_filter.1 hf).1, ?_, ?_, fun hn => (by cases hn), h.delivered, h.counted⟩
  · intro i f hf
    simp [hp] at hf
  · intro e he
    cases he
    show m.nextSeq = m.nextSeq + c.passed.length
    rw [hp]
    rfl

theorem Client.Ok.onSnapshot (h : c.Ok log) (hn : c.expected = none) (m : SnapshotMeta) (now : ℚ) :
    (c.onSnapshot delay m now).Ok log := by
  have hd := (h.atSnapshot hn m
    (c.stats.discardedBeforeSnapshot + (c.pending.length - (c.pending.filter fun f => m.nextSeq ≤ f.seq).length))
    (c.held ++ c.pending.filter fun f => m.nextSeq ≤ f.seq)).drain
  unfold Client.onSnapshot
  simp only
  split
  · exact (requestMissing_same _ now _).ok hd
  · exact hd

/-- What an acknowledgement leaves, before the frames at hand are delivered. -/
theorem Client.Ok.overGap (h : c.Ok log) {e oldest : Nat} (he : c.expected = some e) (hlt : e < oldest) :
    Client.Ok log { c with
      stats := { c.stats with unrecoverable := c.stats.unrecoverable + (oldest - e) }
      gapSeenAt := c.gapSeenAt.filter fun g => oldest ≤ g.1
      expected := some oldest
      passed := c.passed ++ List.replicate (oldest - e) none } := by
  have hlen := h.expected e he
  refine ⟨h.pending, ?_, ?_, fun hn => (by cases hn), ?_, ?_⟩
  · intro i f hf
    by_cases hi : i < c.passed.length
    · rw [List.getElem?_append_left hi] at hf
      exact h.passed i f hf
    · rw [List.getElem?_append_right (by omega), List.getElem?_replicate] at hf
      split at hf <;> cases hf
  · intro e' he'
    cases he'
    show oldest = c.start + (c.passed ++ List.replicate (oldest - e) none).length
    rw [List.length_append, List.length_replicate]
    omega
  · show c.stats.delivered = (Feed.items (c.passed ++ List.replicate (oldest - e) none)).length
    rw [Feed.items_append, Feed.items_replicate_none, List.append_nil]
    exact h.delivered
  · show c.stats.delivered + (c.stats.unrecoverable + (oldest - e)) =
        (c.passed ++ List.replicate (oldest - e) none).length
    rw [List.length_append, List.length_replicate, ← h.counted]
    omega

theorem Client.Ok.skipTo (h : c.Ok log) {e oldest : Nat} (he : c.expected = some e) (hlt : e < oldest) :
    (c.skipTo e oldest).Ok log :=
  (h.overGap he hlt).drain

theorem Client.Ok.onAck (h : c.Ok log) (a : Ack) : (c.onAck a).Ok log := by
  have h' : Client.Ok log { c with
      outstanding := erase Prod.fst (a.fromSeq, a.toSeq) c.outstanding
      stats := { c.stats with retransFrames := c.stats.retransFrames + a.sent } } :=
    ⟨h.pending, h.passed, h.expected, h.fresh, h.delivered, h.counted⟩
  unfold Client.onAck
  simp only
  split
  · exact h'
  · rename_i e he
    split
    · rename_i hc
      exact h'.skipTo he hc.2
    · exact h'

theorem Client.Ok.tick (h : c.Ok log) (now : ℚ) : (c.tick delay now).Ok log := by
  unfold Client.tick
  split
  · exact (requestMissing_same c now _).ok h
  · exact h

/-! ## One snapshot -/

/-- No snapshot is asked for, and the subscriber has as before seen one or not. -/
structure SameAsked (c c' : Client) : Prop where
  sent : c'.sent.count .subscribe = c.sent.count .subscribe
  expected : c'.expected.isSome = c.expected.isSome

theorem SameBooks.asked (h : SameBooks c c') : SameAsked c c' := ⟨h.sent, by rw [h.expected]⟩

theorem SameAsked.trans {c'' : Client} (h : SameAsked c c') (h' : SameAsked c' c'') : SameAsked c c'' :=
  ⟨h'.sent.trans h.sent, h'.expected.trans h.expected⟩

theorem drain_asked (c : Client) : SameAsked c c.drain := by
  refine drainPending_keeps (P := fun c' => SameAsked c c') ?_ _ ⟨rfl, rfl⟩
  intro c' e f h he _
  exact ⟨h.sent, by rw [← h.expected, he]; rfl⟩

theorem observe_asked (c : Client) (f : Frame) (viaRetrans : Bool) (t now : ℚ) :
    SameAsked c (c.observe delay f viaRetrans t now) := by
  unfold Client.observe
  split
  · unfold Client.buffer
    simp only
    split
    · split <;> exact ⟨rfl, rfl⟩
    · exact ⟨rfl, rfl⟩
  · rename_i e he
    split
    · exact ⟨rfl, rfl⟩
    · split
      · refine SameAsked.trans ?_ (drain_asked _)
        exact ⟨rfl, by rw [he]; rfl⟩
      · refine SameAsked.trans ?_ (requestMissing_same _ now f.seq).asked
        unfold Client.hold
        split
        · exact ⟨rfl, rfl⟩
        · refine SameAsked.trans ?_ (seeGap_same _ e t).asked
          exact ⟨rfl, rfl⟩

theorem onAck_asked (c : Client) (a : Ack) : SameAsked c (c.onAck a) := by
  unfold Client.onAck
  simp only
  split
  · exact ⟨rfl, rfl⟩
  · rename_i e he
    split
    · refine SameAsked.trans ?_ (drain_asked _)
      exact ⟨rfl, by rw [he]; rfl⟩
    · exact ⟨rfl, rfl⟩

theorem onSnapshot_asked (c : Client) (m : SnapshotMeta) (now : ℚ) :
    (c.onSnapshot delay m now).sent.count .subscribe = c.sent.count .subscribe := by
  unfold Client.onSnapshot
  simp only
  split
  · rw [(requestMissing_same _ now _).sent, (drain_asked _).sent]
  · rw [(drain_asked _).sent]

end

/-! ## The system -/

def Tcp.isMeta : Tcp → Bool
  | .snapshotMeta _ => true
  | _ => false

/-- Snapshots asked for, on their way and received. -/
def snapshots (c : Client) (stream : List Tcp) : Nat :=
  c.sent.count .subscribe + stream.countP Tcp.isMeta + (if c.expected.isSome then 1 else 0)

theorem SameAsked.snapshots {c c' : Client} (h : SameAsked c c') (stream : List Tcp) :
    snapshots c' stream = snapshots c stream := by
  unfold Mcast.snapshots
  rw [h.sent, h.expected]

theorem countP_isMeta_map {α : Type} {f : α → Tcp} (hf : ∀ x, (f x).isMeta = false) (l : List α) :
    (l.map f).countP Tcp.isMeta = 0 := by
  rw [List.countP_eq_zero]
  intro x hx
  obtain ⟨y, _, rfl⟩ := List.mem_map.1 hx
  simp [hf y]

structure Inv (w : State) : Prop where
  pub : w.pub.Ok
  client : w.client.Ok w.pub.log
  stream : ∀ f, Tcp.frame f ∈ w.stream → Genuine w.pub.log f
  once : snapshots w.client w.stream ≤ 1

theorem inv_init (size : Nat) : Inv (.init size) where
  pub := new_ok size
  client := ⟨fun f hf => (by cases hf), fun i f hf => by simp [State.init, Client.new] at hf, fun e he => (by cases he),
    fun _ => rfl, rfl, rfl⟩
  stream := fun f hf => by cases hf
  once := Nat.le_refl 1

/-- A snapshot on its way is the first. -/
theorem Inv.not_started {w : State} (hI : Inv w)
    {m : SnapshotMeta} {rest : List Tcp} (hs : w.stream = .snapshotMeta m :: rest) :
    w.client.expected = none := by
  have h1 := hI.once
  rw [hs] at h1
  cases he : w.client.expected with
  | none => rfl
  | some e => simp [snapshots, he, Tcp.isMeta] at h1

/-- A frame of the ring is genuine. -/
theorem genuine_frames {p : Publisher} (hp : p.Ok) {seqs : List Nat} (hs : ∀ n ∈ seqs, p.oldest ≤ n ∧ n < p.seq)
    {f : Frame}
    (hf : f ∈ p.frames seqs) : Genuine p.log f := by
  obtain ⟨n, hn, hslot⟩ := List.mem_filterMap.1 hf
  rw [hp.ring n (hs n hn).1 (hs n hn).2] at hslot
  exact hp.genuine hslot

theorem inv_step {delay : ℚ} {w w' : State} {l : Label} (hI : Inv w) (h : step delay w l = some w') : Inv w' := by
  cases l with
  | publish msgType payload =>
    cases h
    exact ⟨publish_ok hI.pub msgType payload, hI.client.append _, fun f hf => (hI.stream f hf).append _, hI.once⟩
  | udp seq t now =>
    obtain ⟨f, hf, rfl⟩ := Option.map_eq_some_iff.1 h
    have ha := @observe_asked delay w.client f false t now
    refine ⟨hI.pub, hI.client.observe (hI.pub.genuine hf) false t now, hI.stream, ?_⟩
    rw [ha.snapshots]
    exact hI.once
  | snapshot latest tsNs =>
    simp only [step] at h
    split at h
    · rename_i rest hs
      cases h
      refine ⟨hI.pub, hI.client.of_same rfl rfl rfl rfl rfl rfl, ?_, ?_⟩
      · intro f hf
        rcases List.mem_append.1 hf with hf | hf
        · exact hI.stream f hf
        · simp [snapshotStream] at hf
      · have h1 := hI.once
        have hframes := countP_isMeta_map (f := fun x : MsgType × List UInt8 => .snapshotFrame x.1 x.2)
          (fun _ => rfl) latest
        simp only [snapshots, hs, List.count_cons_self] at h1
        simp only [snapshots, snapshotStream, List.countP_append, hframes, List.countP_singleton, Tcp.isMeta, if_true]
        omega
    · cases h
  | answer seqs a =>
    simp only [step] at h
    split at h
    · rename_i lo hi rest hs
      split at h
      · rename_i hw
        cases h
        refine ⟨hI.pub, hI.client.of_same rfl rfl rfl rfl rfl rfl, ?_, ?_⟩
        · intro f hf
          rcases List.mem_append.1 hf with hf | hf
          · exact hI.stream f hf
          · simp only [answerStream, List.mem_append, List.mem_map, List.mem_singleton, Tcp.frame.injEq,
              exists_eq_right,
              reduceCtorEq, or_false] at hf
            exact genuine_frames hI.pub hw hf
        · have h1 := hI.once
          have hframes := countP_isMeta_map (f := Tcp.frame) (fun _ => rfl) (w.pub.frames seqs)
          have hcount : (Request.retrans lo hi :: rest).count .subscribe = rest.count .subscribe :=
            List.count_cons_of_ne (by simp)
          simp only [snapshots, hs, hcount] at h1
          simp only [snapshots, answerStream, List.countP_append, hframes, List.countP_singleton, Tcp.isMeta,
            Bool.false_eq_true, if_false]
          omega
      · cases h
    · cases h
  | tcp t now =>
    simp only [step] at h
    split at h
    · rename_i x rest hs
      cases h
      have hrest : ∀ f, Tcp.frame f ∈ rest → Genuine w.pub.log f :=
        fun f hf => hI.stream f (by rw [hs]; exact List.mem_cons_of_mem x hf)
      have h1 := hI.once
      rw [hs] at h1
      have hdrop : ∀ c, x.isMeta = false → snapshots c (x :: rest) = snapshots c rest := by
        intro c hx
        simp [snapshots, hx]
      cases x with
      | snapshotFrame msgType payload =>
        rw [hdrop _ rfl] at h1
        exact ⟨hI.pub, hI.client.of_same rfl rfl rfl rfl rfl rfl, hrest, h1⟩
      | snapshotMeta m =>
        have hcount : (Tcp.snapshotMeta m :: rest).countP Tcp.isMeta = rest.countP Tcp.isMeta + 1 :=
          List.countP_cons_of_pos rfl
        refine ⟨hI.pub, hI.client.onSnapshot (hI.not_started hs) m now, hrest, ?_⟩
        simp only [snapshots, hcount] at h1
        show (w.client.onSnapshot delay m now).sent.count _ + rest.countP _ + _ ≤ 1
        rw [onSnapshot_asked]
        split <;> omega
      | ack a =>
        rw [hdrop _ rfl] at h1
        refine ⟨hI.pub, hI.client.onAck a, hrest, ?_⟩
        exact ((onAck_asked w.client a).snapshots rest).trans_le h1
      | frame f =>
        rw [hdrop _ rfl] at h1
        have hg := hI.stream f (by rw [hs]; exact List.mem_cons_self)
        refine ⟨hI.pub, hI.client.observe hg true t now, hrest, ?_⟩
        exact ((observe_asked w.client f true t now).snapshots rest).trans_le h1
    · cases h
  | tick now =>
    cases h
    have ha : SameAsked w.client (w.client.tick delay now) := by
      unfold Client.tick
      split
      · exact (requestMissing_same w.client now _).asked
      · exact ⟨rfl, rfl⟩
    exact ⟨hI.pub, hI.client.tick now, hI.stream, (ha.snapshots w.stream).trans_le hI.once⟩

/-- **Recovery is safe**: whatever the network and the server do, the frames delivered are the publisher's, in the order
of their numbers, each at most once, and every number from the snapshot's up to the expected one is delivered or
counted. -/
theorem delivered_in_order {size : Nat} {delay : ℚ} {ls : List Label} {w : State}
    (h : Run (step delay) anyStep (.init size) ls w) :
    (w.client.delivered.map Frame.seq).Pairwise (· < ·) ∧ (∀ f ∈ w.client.delivered, w.pub.log[f.seq]? = some f) ∧
      w.client.stats.delivered = w.client.delivered.length ∧
      ∀ e, w.client.expected = some e → w.client.start ≤ e ∧
        w.client.stats.delivered + w.client.stats.unrecoverable = e - w.client.start := by
  have hI : Inv w := h.invariant (inv_init size) fun _ _ _ hI _ hs => inv_step hI hs
  have hc := hI.client
  refine ⟨Feed.items_sorted fun i f hf => (hc.passed i f hf).1, ?_, hc.delivered, ?_⟩
  · intro f hf
    obtain ⟨i, hi⟩ := Feed.mem_items.1 hf
    exact (hc.passed i f hi).2
  · intro e he
    have hlen := hc.expected e he
    refine ⟨by omega, ?_⟩
    rw [hc.counted]
    omega

/-! ## Runs -/

/-- The default gap-fill delay, 20 ms. -/
def GAP_FILL_DELAY_S : ℚ := 1 / 50

/-- The subscriber gets an empty snapshot, then `n` trades are published. -/
def published (n : Nat) : List Label :=
  [.snapshot [] 0, .tcp 1000 1000] ++ (List.range n).map fun i => .publish .trade [UInt8.ofNat i]

/-- A ring of two: of three trades the last arrives, the first is gone and the second is sent again. -/
def recoveredRun : List Label :=
  published 3 ++ [.udp 2 1000 1000, .tick 1001, .answer [1] ⟨0, 1, 1, 1, 1, 3⟩, .tcp 1002 1002, .tcp 1002 1002,
    .udp 0 1003 1003]

theorem delivered_in_order_recovered :
    ∃ w, Run (step GAP_FILL_DELAY_S) anyStep (.init 2) recoveredRun w ∧
      w.client.delivered.map Frame.seq = [1, 2] ∧ w.client.lost = [0] ∧ w.client.stats.duplicates = 1 ∧
      (w.client.delivered.map Frame.seq).Pairwise (· < ·) := by
  obtain ⟨w, h, hd, hl, hdup⟩ : ∃ w, Run (step GAP_FILL_DELAY_S) anyStep (.init 2) recoveredRun w ∧
    w.client.delivered.map Frame.seq = [1, 2] ∧ w.client.lost = [0] ∧ w.client.stats.duplicates = 1 :=
    exists_run (by decide +kernel)
  exact ⟨w, h, hd, hl, hdup, (delivered_in_order h).1⟩

end Mcast

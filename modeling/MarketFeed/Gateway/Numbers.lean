import MarketFeed.Lib.Gaps
import MarketFeed.Gateway.Subscriber
/-!
# Numbers on the wire (services/tcp_gateway.py:179-238, :278-316, :353-361)

In stream mode a frame is numbered when it is queued, while conflating when it is sent. As long as no
numbered frame waits behind a key the numbers leave in order, and a number is missing where a numbered frame
was lost: to overflow, or to a change of mode, which empties the queue.
-/

namespace Gateway

open Gaps

variable {P : Type}

def Written.seq : Written P → Option ℕ
  | .frame seq _ => some seq
  | _ => none

def Item.seq : Item P → Option ℕ
  | .raw seq _ => some seq
  | .key _ => none

/-- The numbers a subscriber has been sent, and those that wait in its queue. -/
def Sub.numbers (s : Sub P) : List ℕ := s.written.filterMap Written.seq ++ s.queue.filterMap Item.seq

theorem rawCount_eq (queue : List (Item P)) : rawCount queue = (queue.filterMap Item.seq).length := by
  induction queue with
  | nil => rfl
  | cons i queue ih =>
    cases i with
    | raw seq f =>
      show List.countP _ (_ :: _) = (seq :: queue.filterMap Item.seq).length
      rw [List.countP_cons_of_pos rfl, List.length_cons, ← ih, rawCount]
    | key k =>
      show List.countP _ (_ :: _) = (queue.filterMap Item.seq).length
      rw [List.countP_cons_of_neg Bool.false_ne_true, ← ih, rawCount]

/-! ## Every number has its place -/

structure Numbered (s : Sub P) : Prop where
  increasing : s.numbers.Pairwise (· < ·)
  below : ∀ n ∈ s.numbers, n < s.outSeq
  counted : s.outSeq = s.numbers.length + (s.lost + s.discarded)
  keysLast : s.queue.Pairwise fun i j => j.isRaw = true → i.isRaw = true
  stream : s.mode = .stream → ∀ i ∈ s.queue, i.isRaw = true

/-- Only the numbers and the shape of the queue matter. -/
theorem Numbered.of_same {s s' : Sub P} (h : Numbered s) (hnumbers : s'.numbers = s.numbers)
    (hseq : s'.outSeq = s.outSeq)
    (hlost : s'.lost + s'.discarded = s.lost + s.discarded) (hqueue : s'.queue = s.queue) (hmode : s'.mode = s.mode) :
    Numbered s' := by
  refine ⟨?_, ?_, ?_, ?_, ?_⟩
  · rw [hnumbers]
    exact h.increasing
  · rw [hnumbers, hseq]
    exact h.below
  · rw [hnumbers, hseq, hlost]
    exact h.counted
  · rw [hqueue]
    exact h.keysLast
  · rw [hqueue, hmode]
    exact h.stream

theorem numbered_connected (ent : Entitlements) (last : List (String × Frame P)) :
    Numbered (Sub.connected ent last) := by
  have hnone : (Sub.connected ent last).numbers = [] := by
    simp [Sub.connected, Sub.numbers, List.filterMap_append, List.filterMap_map, Function.comp_def, Written.seq]
  refine ⟨?_, ?_, ?_, .nil, fun _ i hi => (by cases hi)⟩
  · rw [hnone]
    exact .nil
  · rw [hnone]
    exact fun n hn => (by cases hn)
  · rw [hnone]
    rfl

/-- Dropping the oldest of the queue leaves a gap where it was numbered. -/
theorem Numbered.room {s : Sub P} (h : Numbered s) (size : ℤ) : Numbered (s.room size) := by
  unfold Sub.room
  split
  · obtain ⟨symbols, queue, pending, mode, outSeq, dropped, conflated, token, written, cut, lost, discarded,
        latest⟩ := s
    cases queue with
    | nil => exact h.of_same rfl rfl rfl rfl rfl
    | cons i queue =>
      have hsub : (queue.filterMap Item.seq).Sublist ((i :: queue).filterMap Item.seq) :=
        (List.sublist_cons_self i queue).filterMap _
      have hnumbers : (written.filterMap Written.seq ++ queue.filterMap Item.seq).Sublist
          (written.filterMap Written.seq ++ (i :: queue).filterMap Item.seq) := hsub.append_left _
      refine ⟨h.increasing.sublist hnumbers, fun n hn => h.below n (hnumbers.subset hn), ?_,
        (List.pairwise_cons.1 h.keysLast).2, ?_⟩
      · have hcount := h.counted
        have hraw : rawCount ([i] : List (Item P)) + (queue.filterMap Item.seq).length =
            ((i :: queue).filterMap Item.seq).length := by
          rw [rawCount_eq, ← List.length_append, ← List.filterMap_append]
          rfl
        simp only [Sub.numbers, List.length_append] at hcount
        show outSeq = (written.filterMap Written.seq ++ queue.filterMap Item.seq).length +
            (lost + rawCount [i] + discarded)
        rw [List.length_append]
        omega
      · exact fun hm j hj => h.stream hm j (List.mem_cons_of_mem i hj)
  · exact h

/-- The number that is given next only makes room for itself. -/
theorem room_outSeq (size : ℤ) (s : Sub P) (n : ℕ) :
    Sub.room size { s with outSeq := n } = { s.room size with outSeq := n } := by
  unfold Sub.room Sub.full Sub.dropOverflowed
  split <;> rfl

theorem room_same (size : ℤ) (s : Sub P) :
    (s.room size).outSeq = s.outSeq ∧ (s.room size).mode = s.mode ∧ ∀ i ∈ (s.room size).queue, i ∈ s.queue := by
  unfold Sub.room
  split
  · exact ⟨rfl, rfl, fun i hi => List.mem_of_mem_tail hi⟩
  · exact ⟨rfl, rfl, fun i hi => hi⟩

/-- A frame that is numbered at once, behind numbered frames only. -/
theorem Numbered.offerRaw {size : ℤ} {f : Frame P} {s : Sub P} (h : Numbered s) (hraw : ∀ i ∈ s.queue, i.isRaw = true) :
    Numbered (s.offerRaw size f) := by
  have hr := h.room size
  obtain ⟨hseq, -, hmem⟩ := room_same size s
  unfold Sub.offerRaw
  rw [room_outSeq]
  generalize s.room size = r at hr hseq hmem
  obtain ⟨hinc, hlt⟩ := pairwise_snoc hr.increasing hr.below
  have hcount := hr.counted
  simp only
  split
  · refine ⟨hr.increasing, fun n hn => ?_, ?_, hr.keysLast, hr.stream⟩
    · exact Nat.lt_succ_of_lt (hseq ▸ hr.below n hn)
    · show s.outSeq + 1 = r.numbers.length + (r.lost + 1 + r.discarded)
      omega
  · have hnumbers : r.written.filterMap Written.seq ++ (r.queue ++ [Item.raw s.outSeq f]).filterMap Item.seq =
        r.numbers ++ [r.outSeq] := by
      rw [List.filterMap_append, ← List.append_assoc, hseq]
      rfl
    have hall : ∀ i ∈ r.queue ++ [Item.raw s.outSeq f], i.isRaw = true := by
      intro i hi
      rcases List.mem_append.1 hi with hi | hi
      · exact hraw i (hmem i hi)
      · rw [List.mem_singleton.1 hi]
        rfl
    refine ⟨?_, ?_, ?_, List.pairwise_of_forall_mem_list fun i hi j _ _ => hall i hi, fun _ => hall⟩
    · show (r.written.filterMap Written.seq ++ (r.queue ++ [Item.raw s.outSeq f]).filterMap Item.seq).Pairwise (· < ·)
      rw [hnumbers]
      exact hinc
    · show ∀ n ∈ r.written.filterMap Written.seq ++ (r.queue ++ [Item.raw s.outSeq f]).filterMap Item.seq,
          n < s.outSeq + 1
      rw [hnumbers, ← hseq]
      exact hlt
    · show s.outSeq + 1 = (r.written.filterMap Written.seq ++ (r.queue ++ [Item.raw s.outSeq f]).filterMap
          Item.seq).length + (r.lost + r.discarded)
      rw [hnumbers, List.length_append, List.length_singleton]
      omega

/-- A key takes no number until it is sent. -/
theorem Numbered.offerKey {size : ℤ} {k : String} {f : Frame P} {s : Sub P} (h : Numbered s) (hm : s.mode = .conflate) :
    Numbered (s.offerKey size k f) := by
  unfold Sub.offerKey
  split
  · exact h.of_same rfl rfl rfl rfl rfl
  · have hr := h.room size
    have hmode := (room_same size s).2.1
    generalize s.room size = r at hr hmode
    simp only
    split
    · exact hr
    · have hnumbers : r.written.filterMap Written.seq ++ (r.queue ++ [Item.key k]).filterMap Item.seq = r.numbers := by
        rw [List.filterMap_append]
        exact congrArg _ (List.append_nil _)
      refine ⟨?_, ?_, ?_, ?_, fun hs => ?_⟩
      · show (r.written.filterMap Written.seq ++ (r.queue ++ [Item.key k]).filterMap Item.seq).Pairwise (· < ·)
        rw [hnumbers]
        exact hr.increasing
      · show ∀ n ∈ r.written.filterMap Written.seq ++ (r.queue ++ [Item.key k]).filterMap Item.seq, n < r.outSeq
        rw [hnumbers]
        exact hr.below
      · show r.outSeq = (r.written.filterMap Written.seq ++ (r.queue ++ [Item.key k]).filterMap Item.seq).length +
            (r.lost + r.discarded)
        rw [hnumbers]
        exact hr.counted
      · refine List.pairwise_append.2 ⟨hr.keysLast, List.pairwise_singleton _ _, fun i _ j hj hraw => ?_⟩
        rw [List.mem_singleton.1 hj] at hraw
        cases hraw
      · have hmode' : r.mode = .stream := hs
        rw [hmode, hm] at hmode'
        cases hmode'

theorem Numbered.offer {size : ℤ} {f : Frame P} {s : Sub P} (h : Numbered s)
    (hkey : keyOf f = none → ∀ i ∈ s.queue, i.isRaw = true) :
    Numbered (s.offer size f) := by
  unfold Sub.offer
  split
  · exact h
  · split
    · exact h.offerRaw (hkey ‹_›)
    · split
      · exact h
      · split
        · exact h.offerKey ‹_›
        · exact h.offerRaw (h.stream ‹_›)

theorem Numbered.sendOne {s s' : Sub P} (h : Numbered s) (hs : s.sendOne = some s') : Numbered s' := by
  obtain ⟨symbols, queue, pending, mode, outSeq, dropped, conflated, token, written, cut, lost, discarded, latest⟩ := s
  cases queue with
  | nil => cases hs
  | cons i queue =>
    obtain ⟨hhead, htail⟩ := List.pairwise_cons.1 h.keysLast
    have hstream : mode = .stream → ∀ i ∈ queue, i.isRaw = true :=
      fun hm j hj => h.stream hm j (List.mem_cons_of_mem i hj)
    cases i with
    | raw seq f =>
      cases hs
      have hnumbers : (written ++ [Written.frame seq f]).filterMap Written.seq ++ queue.filterMap Item.seq =
          written.filterMap Written.seq ++ (Item.raw seq f :: queue).filterMap Item.seq := by
        rw [List.filterMap_append, List.append_assoc]
        rfl
      refine ⟨?_, ?_, ?_, htail, hstream⟩
      · show ((written ++ [Written.frame seq f]).filterMap Written.seq ++ queue.filterMap Item.seq).Pairwise (· < ·)
        rw [hnumbers]
        exact h.increasing
      · show ∀ n ∈ (written ++ [Written.frame seq f]).filterMap Written.seq ++ queue.filterMap Item.seq, n < outSeq
        rw [hnumbers]
        exact h.below
      · show outSeq = ((written ++ [Written.frame seq f]).filterMap Written.seq ++ queue.filterMap Item.seq).length +
            (lost + discarded)
        rw [hnumbers]
        exact h.counted
    | key k =>
      have hnil : queue.filterMap Item.seq = [] := by
        apply List.filterMap_eq_nil_iff.2
        intro j hj
        cases j with
        | raw seq f => cases hhead (.raw seq f) hj rfl
        | key k => rfl
      simp only [Sub.sendOne] at hs
      split at hs
      · cases hs
        exact ⟨h.increasing, h.below, h.counted, htail, hstream⟩
      · rename_i f hf
        cases hs
        have hnumbers : (written ++ [Written.frame outSeq f]).filterMap Written.seq ++ queue.filterMap Item.seq =
            (written.filterMap Written.seq ++ (Item.key k :: queue).filterMap Item.seq) ++ [outSeq] := by
          have hcons : (Item.key k :: queue).filterMap Item.seq = queue.filterMap Item.seq := rfl
          rw [hcons, hnil, List.append_nil, List.append_nil, List.filterMap_append]
          rfl
        obtain ⟨hinc, hlt⟩ := pairwise_snoc h.increasing h.below
        refine ⟨?_, ?_, ?_, htail, hstream⟩
        · show ((written ++ [Written.frame outSeq f]).filterMap Written.seq ++ queue.filterMap Item.seq).Pairwise
              (· < ·)
          rw [hnumbers]
          exact hinc
        · show ∀ n ∈ (written ++ [Written.frame outSeq f]).filterMap Written.seq ++ queue.filterMap Item.seq,
              n < outSeq + 1
          rw [hnumbers]
          exact hlt
        · have hcount := h.counted
          show outSeq + 1 = ((written ++ [Written.frame outSeq f]).filterMap Written.seq ++
              queue.filterMap Item.seq).length + (lost + discarded)
          rw [hnumbers, List.length_append, List.length_singleton]
          simp only [Sub.numbers] at hcount
          omega

/-- What waited with a number is discarded. -/
theorem Numbered.changeMode {s : Sub P} (h : Numbered s) (mode : Option Mode) : Numbered (s.changeMode mode) := by
  unfold Sub.changeMode
  split
  · exact h
  · split
    · exact h
    · have hsub : (s.written.filterMap Written.seq ++ ([] : List (Item P)).filterMap Item.seq).Sublist s.numbers :=
        (List.nil_sublist _).append_left _
      refine ⟨h.increasing.sublist hsub, fun n hn => h.below n (hsub.subset hn), ?_, .nil, fun _ i hi => (by cases hi)⟩
      have hcount := h.counted
      have hraw := rawCount_eq s.queue
      simp only [Sub.numbers, List.length_append, List.filterMap_nil, List.length_nil] at hcount ⊢
      omega

theorem Numbered.answered {s : Sub P} (h : Numbered s) (token : String) (a : Answer Sym) :
    Numbered (s.answered token a) := by
  have hack : (s.answered token a).written.filterMap Written.seq = s.written.filterMap Written.seq := by
    unfold Sub.answered
    simp only
    split
    · rw [List.filterMap_append]
      exact List.append_nil _
    · rfl
  refine h.of_same ?_ rfl rfl rfl rfl
  show (s.answered token a).written.filterMap Written.seq ++ s.queue.filterMap Item.seq = s.numbers
  rw [hack]
  rfl

theorem Numbered.subscribe {ent : Entitlements} {r : Request} {s s' : Sub P} (h : Numbered s)
    (hs : s.subscribe ent r = some s') : Numbered s' :=
  Sub.subscribe_keeps (I := Numbered) (fun _ token a h => h.answered token a) (fun _ mode h => h.changeMode mode) h hs

/-! ## What is lost and what is counted -/

/-- A numbered frame lost to overflow is counted in `dropped`, but for the frame at hand when the subscriber is cut
off. -/
def Tallied (s : Sub P) : Prop := s.lost ≤ s.dropped + s.cut.toNat

/-- The tallies of a subscriber that never conflates. -/
structure Streams (s : Sub P) : Prop where
  stream : s.mode = .stream
  discarded : s.discarded = 0
  tally : s.lost = s.dropped + s.cut.toNat
  raw : ∀ i ∈ s.queue, i.isRaw = true

theorem rawCount_take (queue : List (Item P)) : rawCount (queue.take 1) ≤ 1 :=
  (List.countP_le_length).trans (List.length_take_le 1 queue)

theorem rawCount_head {size : ℤ} {s : Sub P} (hfull : s.full size = true) (hraw : ∀ i ∈ s.queue, i.isRaw = true) :
    rawCount (s.queue.take 1) = 1 := by
  simp only [Sub.full, Bool.and_eq_true, decide_eq_true_eq] at hfull
  cases hq : s.queue with
  | nil =>
    rw [hq, List.length_nil] at hfull
    omega
  | cons i queue =>
    show List.countP _ [i] = 1
    rw [List.countP_singleton, hraw i (hq ▸ List.mem_cons_self)]
    rfl

theorem tallied_room {s : Sub P} (h : s.lost ≤ s.dropped) (size : ℤ) : (s.room size).lost ≤ (s.room size).dropped := by
  unfold Sub.room
  split
  · have := rawCount_take s.queue
    show s.lost + rawCount (s.queue.take 1) ≤ s.dropped + 1
    omega
  · exact h

theorem Tallied.offer {size : ℤ} {f : Frame P} {s : Sub P} (h : Tallied s) : Tallied (s.offer size f) := by
  unfold Sub.offer
  split
  · exact h
  · rename_i hcut
    have hle : s.lost ≤ s.dropped := by simpa [Tallied, hcut] using h
    have hraw : Tallied (s.offerRaw size f) := by
      have hr := tallied_room hle size
      unfold Sub.offerRaw Tallied
      rw [room_outSeq]
      simp only
      split
      · rename_i hc
        rw [hc]
        exact Nat.succ_le_succ hr
      · exact hr.trans (Nat.le_add_right _ _)
    split
    · exact hraw
    · split
      · exact h
      · split
        · unfold Sub.offerKey
          split
          · exact h
          · have hr := tallied_room hle size
            simp only
            split
            · exact hr.trans (Nat.le_add_right _ _)
            · exact hr.trans (Nat.le_add_right _ _)
        · exact hraw

theorem Streams.offer {size : ℤ} {f : Frame P} {s : Sub P} (h : Streams s) : Streams (s.offer size f) := by
  have hraw (hcut : s.cut = false) : Streams (s.offerRaw size f) := by
    have htally : (s.room size).lost = (s.room size).dropped := by
      have heq := h.tally
      rw [hcut] at heq
      unfold Sub.room
      split
      · have := rawCount_head ‹_› h.raw
        show s.lost + rawCount (s.queue.take 1) = s.dropped + 1
        rw [this, heq]
        rfl
      · exact heq
    have hdiscarded : (s.room size).discarded = 0 := by
      unfold Sub.room
      split <;> exact h.discarded
    obtain ⟨-, hmode, hmem⟩ := room_same size s
    unfold Sub.offerRaw
    rw [room_outSeq]
    simp only
    split
    · rename_i hc
      refine ⟨hmode.trans h.stream, hdiscarded, ?_, fun i hi => h.raw i (hmem i hi)⟩
      show (s.room size).lost + 1 = (s.room size).dropped + (s.room size).cut.toNat
      rw [hc, htally]
      rfl
    · rename_i hc
      refine ⟨hmode.trans h.stream, hdiscarded, ?_, fun i hi => ?_⟩
      · show (s.room size).lost = (s.room size).dropped + (s.room size).cut.toNat
        rw [Bool.eq_false_iff.2 hc, htally]
        rfl
      · rcases List.mem_append.1 hi with hi | hi
        · exact h.raw i (hmem i hi)
        · rw [List.mem_singleton.1 hi]
          rfl
  unfold Sub.offer
  split
  · exact h
  · have hcut := Bool.eq_false_iff.2 ‹_›
    split
    · exact hraw hcut
    · split
      · exact h
      · rw [h.stream]
        exact hraw hcut

theorem Streams.sendOne {s s' : Sub P} (h : Streams s) (hs : s.sendOne = some s') : Streams s' := by
  unfold Sub.sendOne at hs
  split at hs
  · cases hs
  · rename_i seq f queue hq
    cases hs
    exact ⟨h.stream, h.discarded, h.tally, fun i hi => h.raw i (hq ▸ List.mem_cons_of_mem _ hi)⟩
  · rename_i k queue hq
    cases h.raw (.key k) (hq ▸ List.mem_cons_self)

theorem Tallied.sendOne {s s' : Sub P} (h : Tallied s) (hs : s.sendOne = some s') : Tallied s' := by
  unfold Sub.sendOne at hs
  split at hs
  · cases hs
  · cases hs
    exact h
  · split at hs <;> (cases hs; exact h)

theorem Tallied.changeMode {s : Sub P} (h : Tallied s) (mode : Option Mode) : Tallied (s.changeMode mode) := by
  unfold Sub.changeMode
  split
  · exact h
  · split <;> exact h

theorem Tallied.subscribe {ent : Entitlements} {r : Request} {s s' : Sub P} (h : Tallied s)
    (hs : s.subscribe ent r = some s') : Tallied s' :=
  Sub.subscribe_keeps (I := Tallied) (fun _ _ _ h => h) (fun _ mode h => h.changeMode mode) h hs

/-- A request that is not for conflation. -/
def Request.plain : Request → Prop
  | .request _ _ (some .conflate) => False
  | _ => True

theorem Streams.subscribe {ent : Entitlements} {r : Request} {s s' : Sub P} (h : Streams s) (hr : r.plain)
    (hs : s.subscribe ent r = some s') :
    Streams s' := by
  cases r with
  | ignored =>
    cases hs
    exact h
  | broken => cases hs
  | request token symbols mode =>
    obtain ⟨a, -, rfl⟩ := Option.map_eq_some_iff.1 hs
    have ha : Streams (s.answered token a) := ⟨h.stream, h.discarded, h.tally, h.raw⟩
    have hmode : mode = none ∨ mode = some .stream := by
      match mode, hr with
      | none, _ => exact .inl rfl
      | some .stream, _ => exact .inr rfl
    unfold Sub.changeMode
    rcases hmode with rfl | rfl
    · exact ha
    · simp only [ha.stream, if_pos]
      exact ha

/-! ## Gaps are losses -/

/-- No frame without a key is published while a key waits in the queue of `id`. -/
def noneBehindKey (id : ℕ) (g : State P) : Label P → Prop
  | .publish f => keyOf f = none → (g.subs id).all (fun s => s.queue.all Item.isRaw) = true
  | _ => True

instance (id : ℕ) (g : State P) : (l : Label P) → Decidable (noneBehindKey id g l)
  | .publish _ => inferInstanceAs (Decidable (_ → _))
  | .connect => .isTrue trivial
  | .subscribe _ _ => .isTrue trivial
  | .send _ => .isTrue trivial
  | .hangup _ => .isTrue trivial

/-- **Gaps are losses.** The numbers a subscriber has been sent and those that wait for it increase. Their gaps
total what overflow took of the numbered frames and what changes of mode discarded; without conflation, all
that was dropped. -/
theorem gaps_are_losses (ent : Entitlements) (size : ℤ) (id : ℕ) {labels : List (Label P)} {g : State P} {s : Sub P}
    (h : Lts.Run (step ent size) (noneBehindKey id) .start labels g) (hs : g.subs id = some s) :
    s.numbers.Pairwise (· < ·) ∧ missing 0 s.numbers s.outSeq = s.lost + s.discarded ∧
      s.lost ≤ s.dropped + s.cut.toNat ∧
      ((∀ r, .subscribe id r ∈ labels → r.plain) → s.discarded = 0 ∧ s.lost = s.dropped + s.cut.toNat) := by
  have hraw : ∀ (g : State P) s f, noneBehindKey id g (.publish f) → g.subs id = some s → keyOf f = none →
      ∀ i ∈ s.queue, i.isRaw = true := by
    intro g s f hok hs hkey
    have := hok hkey
    rw [hs, Option.all_some] at this
    exact List.all_eq_true.1 this
  have hn : Numbered s := run_subs (numbered_connected ent) (fun g s f hok hs hi => hi.offer (hraw g s f hok hs))
    (fun _ s r s' _ hi h => hi.subscribe h) (fun s s' hi h => hi.sendOne h) h hs
  have ht : Tallied s := run_subs (fun _ => Nat.le_refl 0) (fun _ _ _ _ _ hi => hi.offer)
    (fun _ _ _ _ _ hi h => hi.subscribe h) (fun _ _ hi h => hi.sendOne h) h hs
  refine ⟨hn.increasing, missing_eq hn.increasing hn.below hn.counted, ht, fun hplain => ?_⟩
  have hrun := h.restrict (p := fun l => ∀ r, l = .subscribe id r → r.plain) fun l hl r hlr => hplain r (hlr ▸ hl)
  have hst : Streams s := run_subs (fun _ => ⟨rfl, rfl, rfl, fun i hi => (by cases hi)⟩) (fun _ _ _ _ _ hi => hi.offer)
    (fun _ _ r _ hok hi h => hi.subscribe (hok.2 r rfl) h) (fun _ _ hi h => hi.sendOne h) hrun hs
  exact ⟨hst.discarded, hst.tally⟩

/-- One frame sent, two waiting, then conflation and one more frame. -/
def switched : List (Label ℕ) :=
  [.connect, .publish heartbeat, .send 0, .publish (trade "A" 1), .publish (trade "A" 2),
    .subscribe 0 (.request "" none (some .conflate)),
    .publish (trade "A" 3), .send 0]

/-- A queue of one, overrun while streaming, then emptied by the change of mode, and two frames of one key. -/
def overrun : List (Label ℕ) :=
  [.connect, .publish (trade "A" 1), .publish (trade "B" 2), .subscribe 0 (.request "" none (some .conflate)),
    .publish (trade "A" 3),
    .publish (trade "A" 4), .send 0]

theorem gaps_are_losses_overrun : ∃ (g : State ℕ) (s : Sub ℕ), Lts.Run (step ⟨[], false⟩ 1)
    (noneBehindKey 0) .start overrun g ∧ g.subs 0 = some s ∧
    s.numbers = [2] ∧ missing 0 s.numbers s.outSeq = 2 ∧ s.dropped = 1 := by
  obtain ⟨g, s, hg, hs, hnum, hdropped, hlost, hdiscarded⟩ : ∃ (g : State ℕ) (s : Sub ℕ),
      Lts.Run (step ⟨[], false⟩ 1) (noneBehindKey 0) .start overrun g ∧ g.subs 0 = some s ∧
        s.numbers = [2] ∧ s.dropped = 1 ∧ s.lost = 1 ∧ s.discarded = 1 := Lts.exists_run_some (by decide +kernel)
  obtain ⟨-, hgaps, -⟩ := gaps_are_losses ⟨[], false⟩ 1 0 hg hs
  refine ⟨g, s, hg, hs, hnum, ?_, hdropped⟩
  rw [hgaps, hlost, hdiscarded]

/-- A change of mode leaves a gap that nothing counts. -/
theorem switch_leaves_gap : ∃ (g : State ℕ) (s : Sub ℕ), Lts.Run (step ⟨[], false⟩ 10) Lts.anyStep .start switched g ∧
    g.subs 0 = some s ∧
    s.queue = [] ∧ s.numbers = [0, 3] ∧ missing 0 s.numbers s.outSeq = 2 ∧ s.dropped = 0 :=
  Lts.exists_run_some (by decide +kernel)

end Gateway

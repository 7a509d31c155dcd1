import MarketFeed.Gateway.Cpp
import MarketFeed.Lib.Coalesce
import MarketFeed.Lib.Gaps
/-!
# What the C++ gateway puts on the wire (cpp/src/tcp_gateway.cpp:206-227, :457-493, :534-565, :580-619)

* `Whole`: what `send` took and what is left of `wbuf` are whole frames, one after the other.
* `Ordered`: in stream mode a frame is numbered when it is queued, while conflating when it is put into
  `wbuf`. A change of mode empties the queues but not `wbuf`, so the numbers leave in order.
* `InStep`: `drop_overflowed` takes the value of a key with the key, so the key queue and `pending` hold the same keys.
-/

namespace Gateway

namespace Cpp

open Coalesce Gaps

/-! ## Whole frames -/

structure Whole (s : Sub) : Prop where
  off : s.woff ≤ s.wbuf.length
  whole : s.out ++ s.wbuf.drop s.woff = (s.placed.map Placed.bytes).flatten

/-- A frame put at the end of the buffer. -/
theorem Whole.append {s s' : Sub} (h : Whole s) (p : Placed) (hwbuf : s'.wbuf = s.wbuf ++ p.bytes)
    (hwoff : s'.woff = s.woff)
    (hout : s'.out = s.out) (hplaced : s'.placed = s.placed ++ [p]) : Whole s' := by
  refine ⟨?_, ?_⟩
  · rw [hwoff, hwbuf, List.length_append]
    exact h.off.trans (Nat.le_add_right _ _)
  · rw [hout, hwbuf, hwoff, hplaced, List.drop_append_of_le_length h.off, ← List.append_assoc, h.whole,
      List.map_append, List.flatten_append,
      List.map_singleton, List.flatten_singleton]

theorem Whole.of_same {s s' : Sub} (h : Whole s) (hwbuf : s'.wbuf = s.wbuf) (hwoff : s'.woff = s.woff)
    (hout : s'.out = s.out)
    (hplaced : s'.placed = s.placed) : Whole s' := by
  refine ⟨?_, ?_⟩
  · rw [hwoff, hwbuf]
    exact h.off
  · rw [hout, hwbuf, hwoff, hplaced]
    exact h.whole

theorem whole_accepted (ent : Entitlements) (order : List (String × Msg)) (ts : ℕ) :
    Whole (Sub.accepted ent order ts) :=
  ⟨Nat.zero_le _, rfl⟩

theorem Whole.room {s : Sub} (h : Whole s) (cfg : Cfg) : Whole (s.room cfg) := by
  unfold Sub.room
  split
  · have hdrop : Whole s.dropOldest := by
      unfold Sub.dropOldest
      split
      · exact h
      · exact h.of_same rfl rfl rfl rfl
      · exact h.of_same rfl rfl rfl rfl
    exact hdrop.of_same rfl rfl rfl rfl
  · exact h

theorem Whole.offer {cfg : Cfg} {f : Frame Bytes} {s : Sub} (h : Whole s) : Whole (s.offer cfg f) := by
  refine offer_keeps (I := Whole) (fun s h _ => h.room cfg) ?_ ?_ ?_ ?_ ?_ h
  · intro s _ _ _ _ hr
    exact hr.of_same rfl rfl rfl rfl
  · intro s h _
    exact h.of_same rfl rfl rfl rfl
  · intro s k h _ _
    exact h.of_same rfl rfl rfl rfl
  · intro s k h _ _ _
    exact h.of_same rfl rfl rfl rfl
  · intro s h _
    exact h.of_same rfl rfl rfl rfl

theorem Whole.changeMode {s : Sub} (h : Whole s) (mode : Option Mode) : Whole (s.changeMode mode) := by
  unfold Sub.changeMode
  split
  · exact h
  · split
    · exact h
    · exact h.of_same rfl rfl rfl rfl

theorem Whole.applySubscribe {ent : Entitlements} {json : List Char} {s : Sub} (h : Whole s) :
    Whole (s.applySubscribe ent json) := by
  refine applySubscribe_keeps (I := Whole) ?_ ?_ ?_ (fun _ mode h => h.changeMode mode) h
  · intro s _ _ h
    exact h.of_same rfl rfl rfl rfl
  · intro s h
    exact h.of_same rfl rfl rfl rfl
  · intro s m h
    exact h.append (.plain m) rfl rfl rfl rfl

theorem Whole.flush {sends : List Sending} {s s' : Sub} (h : Whole s) (hf : s.flush sends = some s') : Whole s' := by
  refine flush_keeps (I := Whole) ?_ ?_ ?_ ?_ ?_ h hf
  · intro s h hoff
    have heq : s.woff = s.wbuf.length := Nat.le_antisymm h.off hoff
    refine ⟨Nat.le_refl 0, ?_⟩
    have hwhole := h.whole
    rw [heq, List.drop_length] at hwhole
    exact hwhole
  · intro s item rest h _ _
    unfold Sub.takeKey
    split
    · exact h.append (.numbered s.outSeq item.msg) rfl rfl rfl rfl
    · split
      · exact h.of_same rfl rfl rfl rfl
      · rename_i m _
        exact h.append (.numbered s.outSeq m) rfl rfl rfl rfl
  · intro s x rest h _ _
    exact h.append (.numbered x.1 x.2) rfl rfl rfl rfl
  · intro s n h hn
    refine ⟨hn, ?_⟩
    show (s.out ++ (s.wbuf.drop s.woff).take n) ++ s.wbuf.drop (s.woff + n) = _
    rw [← List.drop_drop, List.append_assoc, List.take_append_drop]
    exact h.whole
  · intro s h
    exact h.of_same rfl rfl rfl rfl

/-! ## Numbers in order -/

/-- The numbers put into `wbuf`, and those that wait in the queue. -/
def Sub.numbers (s : Sub) : List ℕ := s.placedNumbers ++ s.queue.map Prod.fst

structure Ordered (s : Sub) : Prop where
  increasing : s.numbers.Pairwise (· < ·)
  below : ∀ n ∈ s.numbers, n < s.outSeq
  counted : s.outSeq = s.numbers.length + (s.lost + s.refused.toNat + s.discarded)
  conflate : s.conflate = true → s.queue = []
  refused : s.refused = true → s.closing = true
  since : s.modeAt ≤ s.placedNumbers.length ∧ s.modeSeq ≤ s.outSeq
  contiguous : s.conflate = true → s.placedNumbers.drop s.modeAt = List.range' s.modeSeq (s.outSeq - s.modeSeq)

theorem Ordered.of_same {s s' : Sub} (h : Ordered s) (hplaced : s'.placedNumbers = s.placedNumbers)
    (hqueue : s'.queue = s.queue)
    (hseq : s'.outSeq = s.outSeq) (hlost : s'.lost = s.lost) (hrefused : s'.refused = s.refused)
    (hdiscarded : s'.discarded = s.discarded)
    (hconflate : s'.conflate = s.conflate) (hclosing : s.closing = true → s'.closing = true)
    (hat : s'.modeAt = s.modeAt)
    (hmode : s'.modeSeq = s.modeSeq) : Ordered s' := by
  have hnumbers : s'.numbers = s.numbers := by rw [Sub.numbers, hplaced, hqueue, Sub.numbers]
  refine ⟨?_, ?_, ?_, ?_, ?_, ?_, ?_⟩
  · rw [hnumbers]
    exact h.increasing
  · rw [hnumbers, hseq]
    exact h.below
  · rw [hnumbers, hseq, hlost, hrefused, hdiscarded]
    exact h.counted
  · rw [hconflate, hqueue]
    exact h.conflate
  · rw [hrefused]
    exact fun hr => hclosing (h.refused hr)
  · rw [hat, hmode, hplaced, hseq]
    exact h.since
  · rw [hconflate, hplaced, hat, hmode, hseq]
    exact h.contiguous

theorem ordered_accepted (ent : Entitlements) (order : List (String × Msg)) (ts : ℕ) :
    Ordered (Sub.accepted ent order ts) := by
  have hnone : (Sub.accepted ent order ts).numbers = [] := by
    simp [Sub.accepted, Sub.numbers, Sub.placedNumbers, List.filterMap_append, List.filterMap_map,
      Function.comp_def, Placed.seq]
  refine ⟨?_, ?_, ?_, fun h => (by cases h), fun h => (by cases h), ⟨Nat.zero_le _, Nat.le_refl 0⟩,
    fun h => (by cases h)⟩
  · rw [hnone]
    exact .nil
  · rw [hnone]
    exact fun n hn => (by cases hn)
  · rw [hnone]
    rfl

theorem Ordered.room {s : Sub} (h : Ordered s) (hopen : s.closing = false) (cfg : Cfg) : Ordered (s.room cfg) := by
  have hclosed : s.closing = true → (s.room cfg).closing = true := fun hc => by rw [hopen] at hc; cases hc
  unfold Sub.room at hclosed ⊢
  split at hclosed
  · rename_i hfull
    rw [if_pos hfull]
    obtain ⟨symbols, conflate, queue, keyQueue, pending, wbuf, woff, wframes, dropped, sent, outSeq, conflated,
        closing, out, placed, lost, refused,
      lostKeys, discarded, modeAt, modeSeq, token⟩ := s
    match conflate, keyQueue, h, hclosed with
    | true, [], h, hclosed => exact h.of_same rfl rfl rfl rfl rfl rfl rfl hclosed rfl rfl
    | true, _ :: _, h, hclosed => exact h.of_same rfl rfl rfl rfl rfl rfl rfl hclosed rfl rfl
    | false, _, h, hclosed =>
      cases queue with
      | nil => exact h.of_same rfl rfl rfl rfl rfl rfl rfl hclosed rfl rfl
      | cons x queue =>
        have hsub : (placed.filterMap Placed.seq ++ queue.map Prod.fst).Sublist
            (placed.filterMap Placed.seq ++ (x :: queue).map Prod.fst) :=
          ((List.sublist_cons_self x queue).map _).append_left _
        refine ⟨h.increasing.sublist hsub, fun n hn => h.below n (hsub.subset hn), ?_, fun hm => (by cases hm),
          fun hr => hclosed (h.refused hr),
          h.since, fun hm => (by cases hm)⟩
        have hcount := h.counted
        simp only [Sub.numbers, Sub.placedNumbers, List.length_append, List.length_map, List.length_cons] at hcount
        show outSeq = (placed.filterMap Placed.seq ++ queue.map Prod.fst).length +
            (lost + 1 + refused.toNat + discarded)
        rw [List.length_append, List.length_map]
        omega
  · rename_i hfull
    rw [if_neg hfull]
    exact h

/-- The frame at hand has its number and is lost. -/
theorem Ordered.refuse {cfg : Cfg} {s : Sub} (h : Ordered s) (hopen : s.closing = false) (hm : s.conflate = false)
    (hcut : (s.room cfg).closing = true) : Ordered { s.room cfg with outSeq := s.outSeq + 1, refused := true } := by
  have hr := h.room hopen cfg
  obtain ⟨hconflate, hseq, hrefused⟩ := Sub.room_same cfg s
  have hnot : s.refused = false := Bool.eq_false_iff.2 fun h' => by rw [h.refused h'] at hopen; cases hopen
  generalize s.room cfg = r at hr hcut hconflate hseq hrefused
  refine ⟨hr.increasing, fun n hn => ?_, ?_, hr.conflate, fun _ => hcut, ⟨hr.since.1, ?_⟩, fun hc => ?_⟩
  · exact Nat.lt_succ_of_lt (hseq ▸ hr.below n hn)
  · have hcount := hr.counted
    rw [hrefused, hnot, hseq] at hcount
    show s.outSeq + 1 = r.numbers.length + (r.lost + 1 + r.discarded)
    rw [Bool.toNat_false] at hcount
    omega
  · exact (hseq ▸ hr.since.2).trans (Nat.le_succ _)
  · have hc : r.conflate = true := hc
    rw [hconflate, hm] at hc
    cases hc

/-- A number goes to the end, of the queue or of the buffer. -/
theorem Ordered.next {s s' : Sub} (h : Ordered s) (hnumbers : s'.numbers = s.numbers ++ [s.outSeq])
    (hseq : s'.outSeq = s.outSeq + 1)
    (hlost : s'.lost = s.lost) (hrefused : s'.refused = s.refused) (hdiscarded : s'.discarded = s.discarded) :
    s'.numbers.Pairwise (· < ·) ∧ (∀ n ∈ s'.numbers, n < s'.outSeq) ∧
      s'.outSeq = s'.numbers.length + (s'.lost + s'.refused.toNat + s'.discarded) := by
  obtain ⟨hinc, hlt⟩ := pairwise_snoc h.increasing h.below
  have hcount := h.counted
  rw [hnumbers, hseq, hlost, hrefused, hdiscarded]
  refine ⟨hinc, hlt, ?_⟩
  rw [List.length_append, List.length_singleton]
  omega

theorem Ordered.offer {cfg : Cfg} {f : Frame Bytes} {s : Sub} (h : Ordered s) : Ordered (s.offer cfg f) := by
  refine offer_keeps (I := Ordered) (fun s h hc => h.room hc cfg) ?_ ?_ ?_ ?_ ?_ h
  · intro s h hc hm hcut _
    exact h.refuse hc hm hcut
  · intro s h hm
    have hnumbers : (Sub.pushFrame s.outSeq f { s with outSeq := s.outSeq + 1 }).numbers = s.numbers ++ [s.outSeq] := by
      show s.placedNumbers ++ (s.queue ++ [(s.outSeq, msgOf f)]).map Prod.fst = _
      rw [List.map_append, ← List.append_assoc]
      rfl
    obtain ⟨hinc, hlt, hcount⟩ := h.next hnumbers rfl rfl rfl rfl
    refine ⟨hinc, hlt, hcount, fun hc => ?_, h.refused, ⟨h.since.1, h.since.2.trans (Nat.le_succ _)⟩, fun hc => ?_⟩
    · have hc : s.conflate = true := hc
      rw [hm] at hc
      cases hc
    · have hc : s.conflate = true := hc
      rw [hm] at hc
      cases hc
  · intro s k h _ _
    exact h.of_same rfl rfl rfl rfl rfl rfl rfl id rfl rfl
  · intro s k h _ _ _
    exact h.of_same rfl rfl rfl rfl rfl rfl rfl id rfl rfl
  · intro s h _
    exact h.of_same rfl rfl rfl rfl rfl rfl rfl id rfl rfl

/-- What waits in the stream is discarded; the count of what is contiguous starts anew. -/
theorem Ordered.changeMode {s : Sub} (h : Ordered s) (mode : Option Mode) : Ordered (s.changeMode mode) := by
  unfold Sub.changeMode
  split
  · exact h
  · split
    · exact h
    · have hsub : (s.placedNumbers ++ ([] : List (ℕ × Msg)).map Prod.fst).Sublist s.numbers :=
        (List.nil_sublist _).append_left _
      refine ⟨h.increasing.sublist hsub, fun n hn => h.below n (hsub.subset hn), ?_, fun _ => rfl, h.refused,
        ⟨Nat.le_refl _, Nat.le_refl _⟩, fun _ => ?_⟩
      · have hcount := h.counted
        simp only [Sub.numbers, List.length_append, List.length_map] at hcount
        show s.outSeq = (s.placedNumbers ++ []).length + (s.lost + s.refused.toNat + (s.discarded + s.queue.length))
        rw [List.append_nil]
        omega
      · show s.placedNumbers.drop s.placedNumbers.length = List.range' s.outSeq (s.outSeq - s.outSeq)
        rw [List.drop_length, Nat.sub_self]
        rfl

theorem Ordered.applySubscribe {ent : Entitlements} {json : List Char} {s : Sub} (h : Ordered s) :
    Ordered (s.applySubscribe ent json) := by
  refine applySubscribe_keeps (I := Ordered) ?_ ?_ ?_ (fun _ mode h => h.changeMode mode) h
  · intro s _ _ h
    exact h.of_same rfl rfl rfl rfl rfl rfl rfl id rfl rfl
  · intro s h
    exact h.of_same rfl rfl rfl rfl rfl rfl rfl (fun _ => rfl) rfl rfl
  · intro s m h
    refine h.of_same ?_ rfl rfl rfl rfl rfl rfl id rfl rfl
    show (s.placed ++ [_]).filterMap Placed.seq = s.placed.filterMap Placed.seq
    rw [List.filterMap_append]
    exact List.append_nil _

theorem Ordered.put {s : Sub} (h : Ordered s) (hm : s.conflate = true) (m : Msg) : Ordered (s.put m) := by
  have hq := h.conflate hm
  have hplaced : (s.put m).placedNumbers = s.placedNumbers ++ [s.outSeq] := List.filterMap_append ..
  have hnumbers : (s.put m).numbers = s.numbers ++ [s.outSeq] := by
    show (s.put m).placedNumbers ++ s.queue.map Prod.fst = (s.placedNumbers ++ s.queue.map Prod.fst) ++ [s.outSeq]
    rw [hplaced, hq, List.map_nil, List.append_nil, List.append_nil]
  obtain ⟨hinc, hlt, hcount⟩ := h.next hnumbers rfl rfl rfl rfl
  obtain ⟨hat, hle⟩ := h.since
  refine ⟨hinc, hlt, hcount, fun _ => hq, h.refused, ⟨?_, hle.trans (Nat.le_succ _)⟩, fun _ => ?_⟩
  · rw [hplaced, List.length_append]
    exact hat.trans (Nat.le_add_right _ _)
  · have hlen : s.outSeq + 1 - s.modeSeq = s.outSeq - s.modeSeq + 1 := by omega
    have hlast : s.modeSeq + (s.outSeq - s.modeSeq) = s.outSeq := by omega
    rw [hplaced]
    show (s.placedNumbers ++ [s.outSeq]).drop s.modeAt = List.range' s.modeSeq (s.outSeq + 1 - s.modeSeq)
    rw [List.drop_append_of_le_length hat, h.contiguous hm, hlen, List.range'_1_concat, hlast]

theorem Ordered.flush {sends : List Sending} {s s' : Sub} (h : Ordered s) (hf : s.flush sends = some s') :
    Ordered s' := by
  refine flush_keeps (I := Ordered) ?_ ?_ ?_ ?_ ?_ h hf
  · intro s h _
    exact h.of_same rfl rfl rfl rfl rfl rfl rfl id rfl rfl
  · intro s item rest h hm _
    have hr : Ordered { s with keyQueue := rest } := h.of_same rfl rfl rfl rfl rfl rfl rfl id rfl rfl
    unfold Sub.takeKey
    split
    · exact hr.put hm _
    · split
      · exact hr
      · exact (hr.put hm _).of_same rfl rfl rfl rfl rfl rfl rfl id rfl rfl
  · intro s x rest h hm hq
    have hplaced : (Sub.takeFrame x { s with queue := rest }).placedNumbers = s.placedNumbers ++ [x.1] :=
      List.filterMap_append ..
    have hnumbers : (Sub.takeFrame x { s with queue := rest }).numbers = s.numbers := by
      show (Sub.takeFrame x { s with queue := rest }).placedNumbers ++ rest.map Prod.fst = s.placedNumbers ++
        s.queue.map Prod.fst
      rw [hplaced, hq, List.append_assoc]
      rfl
    refine ⟨?_, ?_, ?_, fun hc => ?_, h.refused, ⟨?_, h.since.2⟩, fun hc => ?_⟩
    · rw [hnumbers]
      exact h.increasing
    · rw [hnumbers]
      exact h.below
    · rw [hnumbers]
      exact h.counted
    · have hc : s.conflate = true := hc
      rw [hm] at hc
      cases hc
    · rw [hplaced, List.length_append]
      exact h.since.1.trans (Nat.le_add_right _ _)
    · have hc : s.conflate = true := hc
      rw [hm] at hc
      cases hc
  · intro s n h _
    exact h.of_same rfl rfl rfl rfl rfl rfl rfl id rfl rfl
  · intro s h
    exact h.of_same rfl rfl rfl rfl rfl rfl rfl (fun _ => rfl) rfl rfl

/-! ## The key queue and the values held for it -/

/-- The key of an entry that has one. -/
def CItem.key? (i : CItem) : Option String := if i.key = "" then none else some i.key

def Sub.keys (s : Sub) : List String := s.keyQueue.filterMap CItem.key?

structure InStep (s : Sub) : Prop where
  lockstep : Lockstep s.keys s.pending
  stream : s.conflate = false → s.keyQueue = [] ∧ s.pending = []

theorem InStep.of_same {s s' : Sub} (h : InStep s) (hkeys : s'.keyQueue = s.keyQueue)
    (hpending : s'.pending = s.pending)
    (hconflate : s'.conflate = s.conflate) : InStep s' := by
  refine ⟨?_, ?_⟩
  · rw [Sub.keys, hkeys, hpending]
    exact h.lockstep
  · rw [hconflate, hkeys, hpending]
    exact h.stream

theorem keyOf_ne_empty {P : Type} {f : Frame P} {k : String} (h : keyOf f = some k) : k ≠ "" := by
  unfold keyOf at h
  split at h
  · obtain ⟨vs, -, rfl⟩ := Option.map_eq_some_iff.1 h
    intro he
    have := congrArg String.length he
    simp at this
  · cases h

/-- The first entry leaves, with the value of its key. -/
theorem InStep.pop {s : Sub} {item : CItem} {rest : List CItem} (h : InStep s) (hq : s.keyQueue = item :: rest) :
    Lockstep (rest.filterMap CItem.key?)
      (if item.key ≠ "" then Keyed.erase Prod.fst item.key s.pending else s.pending) := by
  have hlock := h.lockstep
  rw [Sub.keys, hq, List.filterMap_cons] at hlock
  by_cases hkey : item.key = ""
  · rw [if_neg (fun hne => hne hkey)]
    simpa [CItem.key?, hkey] using hlock
  · rw [if_pos hkey]
    have hcons : Lockstep (item.key :: rest.filterMap CItem.key?) s.pending := by simpa [CItem.key?, hkey] using hlock
    exact hcons.take

theorem InStep.room {s : Sub} (h : InStep s) (cfg : Cfg) : InStep (s.room cfg) := by
  have hdrop : InStep s.dropOldest := by
    unfold Sub.dropOldest
    split
    · exact h
    · rename_i item rest hm hq
      refine ⟨h.pop hq, fun hc => ?_⟩
      have hc : s.conflate = false := hc
      rw [hm] at hc
      cases hc
    · exact h.of_same rfl rfl rfl
  unfold Sub.room
  split
  · exact hdrop.of_same rfl rfl rfl
  · exact h

theorem InStep.offer {cfg : Cfg} {f : Frame Bytes} {s : Sub} (h : InStep s) : InStep (s.offer cfg f) := by
  have hno {s : Sub} {p : Prop} (hm : s.conflate = true) (hc : s.conflate = false) : p := by
    rw [hm] at hc
    cases hc
  refine offer_keeps (I := InStep) (fun s h _ => h.room cfg) ?_ ?_ ?_ ?_ ?_ h
  · intro s _ _ _ _ hr
    exact hr.of_same rfl rfl rfl
  · intro s h _
    exact h.of_same rfl rfl rfl
  · intro s k h hm hk
    refine ⟨h.lockstep.replace (msgOf f) ?_, hno hm⟩
    rw [← pendingOf_isSome]
    exact hk
  · intro s k h hm hkey hk
    have hkeys : (s.keyQueue ++ [(⟨k, ⟨f.msgType, [], f.flags⟩⟩ : CItem)]).filterMap CItem.key? = s.keys ++ [k] := by
      rw [List.filterMap_append]
      simp [CItem.key?, keyOf_ne_empty hkey, Sub.keys]
    refine ⟨?_, hno hm⟩
    show Lockstep ((s.keyQueue ++ [(⟨k, ⟨f.msgType, [], f.flags⟩⟩ : CItem)]).filterMap CItem.key?) _
    rw [hkeys]
    apply h.lockstep.put (msgOf f)
    rw [← pendingOf_isSome]
    exact hk
  · intro s h hm
    have hkeys : (s.keyQueue ++ [(⟨"", msgOf f⟩ : CItem)]).filterMap CItem.key? = s.keys := by
      rw [List.filterMap_append]
      exact List.append_nil _
    refine ⟨?_, hno hm⟩
    show Lockstep ((s.keyQueue ++ [(⟨"", msgOf f⟩ : CItem)]).filterMap CItem.key?) s.pending
    rw [hkeys]
    exact h.lockstep

theorem InStep.changeMode {s : Sub} (h : InStep s) (mode : Option Mode) : InStep (s.changeMode mode) := by
  unfold Sub.changeMode
  split
  · exact h
  · split
    · exact h
    · exact ⟨.nil, fun _ => ⟨rfl, rfl⟩⟩

theorem InStep.applySubscribe {ent : Entitlements} {json : List Char} {s : Sub} (h : InStep s) :
    InStep (s.applySubscribe ent json) :=
  applySubscribe_keeps (I := InStep) (fun _ _ _ h => h.of_same rfl rfl rfl) (fun _ h => h.of_same rfl rfl rfl)
    (fun _ _ h => h.of_same rfl rfl rfl)
    (fun _ mode h => h.changeMode mode) h

theorem InStep.flush {sends : List Sending} {s s' : Sub} (h : InStep s) (hf : s.flush sends = some s') : InStep s' := by
  refine flush_keeps (I := InStep) ?_ ?_ ?_ ?_ ?_ h hf
  · intro s h _
    exact h.of_same rfl rfl rfl
  · intro s item rest h hm hq
    have hpop := h.pop hq
    have hno : s.conflate = false → rest = [] ∧ s.pending = [] := fun hc => by
      rw [hm] at hc
      cases hc
    unfold Sub.takeKey
    split
    · rename_i hkey
      rw [if_neg (fun hne => hne hkey)] at hpop
      exact ⟨hpop, hno⟩
    · rename_i hkey
      rw [if_pos hkey] at hpop
      split
      · rename_i hnone
        have hin : item.key ∈ s.keys := by
          rw [Sub.keys, hq, List.filterMap_cons]
          simp [CItem.key?, hkey]
        have hsome := (h.lockstep.same _).1 hin
        rw [← pendingOf_isSome] at hsome
        have hnone : pendingOf item.key s.pending = none := hnone
        rw [hnone] at hsome
        cases hsome
      · refine ⟨hpop, fun hc => ?_⟩
        have hc : s.conflate = false := hc
        rw [hm] at hc
        cases hc
  · intro s x rest h _ _
    exact h.of_same rfl rfl rfl
  · intro s n h _
    exact h.of_same rfl rfl rfl
  · intro s h
    exact h.of_same rfl rfl rfl

/-! ## What is lost and what is counted -/

/-- Every drop takes an item: a frame of the stream, or something that had no number yet. -/
def Counted (s : Sub) : Prop := s.dropped = s.lost + s.lostKeys

theorem Counted.room {cfg : Cfg} {s : Sub} (h : Counted s) (hsize : 0 < cfg.clientQueue) : Counted (s.room cfg) := by
  unfold Counted at h ⊢
  unfold Sub.room
  split
  · rename_i hfull
    unfold Sub.backlog at hfull
    show s.dropped + 1 = s.dropOldest.lost + s.dropOldest.lostKeys
    unfold Sub.dropOldest
    split
    · rename_i hm hq
      rw [hm, hq] at hfull
      simp only [if_true, List.length_nil] at hfull
      omega
    · show s.dropped + 1 = s.lost + (s.lostKeys + 1)
      omega
    · rename_i hm
      rw [hm] at hfull
      simp only [Bool.false_eq_true, if_false] at hfull
      show s.dropped + 1 = s.lost + (s.queue.take 1).length + s.lostKeys
      rw [List.length_take]
      omega
  · exact h

theorem Counted.offer {cfg : Cfg} {f : Frame Bytes} {s : Sub} (h : Counted s) (hsize : 0 < cfg.clientQueue) :
    Counted (s.offer cfg f) :=
  offer_keeps (I := Counted) (fun _ h _ => h.room hsize) (fun _ _ _ _ _ hr => hr) (fun _ h _ => h) (fun _ _ h _ _ => h)
    (fun _ _ h _ _ _ => h) (fun _ h _ => h) h

theorem Counted.changeMode {s : Sub} (h : Counted s) (mode : Option Mode) : Counted (s.changeMode mode) := by
  unfold Sub.changeMode
  split
  · exact h
  · split <;> exact h

theorem Counted.applySubscribe {ent : Entitlements} {json : List Char} {s : Sub} (h : Counted s) :
    Counted (s.applySubscribe ent json) :=
  applySubscribe_keeps (I := Counted) (fun _ _ _ h => h) (fun _ h => h) (fun _ _ h => h)
    (fun _ mode h => h.changeMode mode) h

theorem Counted.flush {sends : List Sending} {s s' : Sub} (h : Counted s) (hf : s.flush sends = some s') :
    Counted s' := by
  refine flush_keeps (I := Counted) (fun _ h _ => h) ?_ (fun _ _ _ h _ _ => h) (fun _ _ h _ => h) (fun _ h => h) h hf
  intro s item rest h _ _
  unfold Sub.takeKey
  split
  · exact h
  · split <;> exact h

/-! ## The wire -/

/-- **What the C++ gateway puts on the wire**, in every state of every run, whatever `send` takes.
The bytes taken, and those left of the buffer, are whole frames. While conflating, the key queue and `pending`
hold the same keys, each once, and the numbers placed since the mode was set are contiguous. The numbers placed
and waiting increase; their gaps total the frames of the stream that overflow took, the one at hand when the
subscriber was cut off, and those that changes of mode discarded. With room for one item, every drop is one of
the stream or one taken while conflating. -/
theorem wire_is_whole (ent : Entitlements) (cfg : Cfg) (id : ℕ) {labels : List Label} {g : State} {s : Sub}
    (h : Lts.Run (step ent cfg) Lts.anyStep .start labels g) (hs : g.subs id = some s) :
    s.out ++ s.wbuf.drop s.woff = (s.placed.map Placed.bytes).flatten ∧
      (s.conflate = true → s.keys.Nodup ∧ (∀ k, k ∈ s.keys ↔ (pendingOf k s.pending).isSome) ∧
        s.placedNumbers.drop s.modeAt = List.range' s.modeSeq (s.outSeq - s.modeSeq)) ∧
      s.numbers.Pairwise (· < ·) ∧ missing 0 s.numbers s.outSeq = s.lost + s.refused.toNat + s.discarded ∧
      (0 < cfg.clientQueue → s.dropped = s.lost + s.lostKeys) := by
  have hw : Whole s := run_subs (whole_accepted ent) (fun _ _ h => h.offer) (fun _ _ _ _ h => h.applySubscribe)
    (fun _ _ _ h hf => h.flush hf) (fun _ h => h.of_same rfl rfl rfl rfl) h hs
  have ho : Ordered s := run_subs (ordered_accepted ent) (fun _ _ h => h.offer) (fun _ _ _ _ h => h.applySubscribe)
    (fun _ _ _ h hf => h.flush hf) (fun _ h => h.of_same rfl rfl rfl rfl rfl rfl rfl (fun _ => rfl) rfl rfl) h hs
  have hi : InStep s := run_subs (fun _ _ => ⟨.nil, fun _ => ⟨rfl, rfl⟩⟩) (fun _ _ h => h.offer)
    (fun _ _ _ _ h => h.applySubscribe)
    (fun _ _ _ h hf => h.flush hf) (fun _ h => h.of_same rfl rfl rfl) h hs
  refine ⟨hw.whole, fun hc => ⟨hi.lockstep.once, fun k => ?_, ho.contiguous hc⟩, ho.increasing,
    missing_eq ho.increasing ho.below ho.counted,
    fun hsize => ?_⟩
  · rw [pendingOf_isSome]
    exact hi.lockstep.same k
  · exact run_subs (I := Counted) (fun _ _ => rfl) (fun _ _ h => h.offer hsize) (fun _ _ _ _ h => h.applySubscribe)
      (fun _ _ _ h hf => h.flush hf)
      (fun _ h => h) h hs

/-- A frame of one byte with a key, for runs on given inputs. -/
def byteTrade (symbol : String) (b : UInt8) : Frame Bytes := ⟨MSG_TRADE, [b], 0, some ("UPBIT", symbol)⟩

/-- A stream through a queue of one, cut in the middle of its first frame after the snapshot. -/
def cutInFrame : List Label :=
  [.accept [] 0, .publish (byteTrade "A" 1), .publish (byteTrade "B" 2), .flush 0 [.accepted 72, .accepted 8, .again]]

theorem wire_is_whole_cut : ∃ (g : State) (s : Sub), Lts.Run (step ⟨[], false⟩ ⟨1, 10⟩) Lts.anyStep .start cutInFrame
    g ∧ g.subs 0 = some s ∧
    s.out.length = 80 ∧ s.woff = 8 ∧ s.out ++ s.wbuf.drop s.woff = (s.placed.map Placed.bytes).flatten ∧
    s.numbers = [1] ∧ missing 0 s.numbers s.outSeq = s.dropped := by
  obtain ⟨g, s, hg, hs, hout, hoff, hnum, hrefused, hkeys, hdiscarded⟩ : ∃ g s,
    Lts.Run (step ⟨[], false⟩ ⟨1, 10⟩) Lts.anyStep .start cutInFrame g ∧ g.subs 0 = some s ∧ s.out.length = 80 ∧
      s.woff = 8 ∧
      s.numbers = [1] ∧ s.refused = false ∧ s.lostKeys = 0 ∧ s.discarded = 0 := Lts.exists_run_some (by decide +kernel)
  obtain ⟨hwhole, -, -, hgaps, hdropped⟩ := wire_is_whole ⟨[], false⟩ ⟨1, 10⟩ 0 hg hs
  refine ⟨g, s, hg, hs, hout, hoff, hwhole, hnum, ?_⟩
  rw [hgaps, hdropped Nat.one_pos, hrefused, hkeys, hdiscarded]
  rfl

/-- A key lost while conflating, then the stream again. -/
def conflatedThenStreamed : List Label :=
  [.accept [] 0, .flush 0 [.accepted 72], .subscribe 0 "\x7b\"mode\": \"conflate\"\x7d".toList,
    .publish (byteTrade "A" 1), .publish (byteTrade "B" 2),
    .flush 0 [.accepted 7, .accepted 18], .subscribe 0 "\x7b\"mode\": \"stream\"\x7d".toList,
      .publish (byteTrade "A" 3), .flush 0 [.accepted 25]]

/-- What was dropped while conflating leaves no gap. -/
theorem drop_without_gap : ∃ (g : State) (s : Sub), Lts.Run (step ⟨[], false⟩ ⟨1, 10⟩) Lts.anyStep .start
    conflatedThenStreamed g ∧
    g.subs 0 = some s ∧ s.conflate = false ∧ s.queue = [] ∧ s.wbuf = [] ∧ s.placedNumbers = [0, 1] ∧
    missing 0 s.placedNumbers s.outSeq = 0 ∧
    s.dropped = 1 ∧ s.discarded = 0 :=
  Lts.exists_run_some (by decide +kernel)

end Cpp

end Gateway

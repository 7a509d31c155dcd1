import Mathlib.Data.List.Induction
import MarketFeed.Mcast.Step
/-!
# What a retransmission answers (mcast_publisher.cpp:184-193, :263-285)

A subscriber asks for the numbers `lo` to `hi`. `requested` are those of them that were published, up to
the limit of 10000 for one request. The answer is in two parts, the numbers it calls unavailable and the
frames it sends, and it is right when the two are the numbers requested, each frame the one published under
its number (`Publisher.Answered`).

`to - from + 1` is computed on 64 bits. For a request that ends before it starts it wraps, looks like one
over the limit, and is served from `from` on.

| here | there |
| --- | --- |
| `Publisher.onFrame` | `on_frame`; `seq_ % ring_.size()` traps when the ring has no slots |
| `Publisher.feed` | the frames of the bus, from the start of the publisher |
-/

namespace Mcast

def Publisher.onFrame (p : Publisher) (frame : MsgType × List UInt8) : Option Publisher :=
  if p.size = 0 then none else some (p.publish frame.1 frame.2)

def Publisher.feed (size : Nat) (frames : List (MsgType × List UInt8)) : Option Publisher :=
  frames.foldlM Publisher.onFrame (.new size)

/-- The published numbers of a request, up to the limit. -/
def Publisher.requested (p : Publisher) (lo hi : Nat) : List Nat :=
  (List.range' lo (min (hi + 1) p.seq - lo)).take 10000

/-- The slots hold the frames that the ring keeps, each at its number. -/
structure Publisher.Keeps (p : Publisher) (frames : List (MsgType × List UInt8)) : Prop where
  log : p.log = frames.mapIdx fun n f => ⟨f.1, n, f.2⟩
  slot : ∀ n, p.seq ≤ n + p.size → n < p.seq → p.slots (n % p.size) = p.log[n]?

/-- The numbers called unavailable and those sent are the numbers requested, and the frames sent those published. -/
structure Publisher.Answered (p : Publisher) (lo hi : Nat) : Prop where
  partition : List.range' lo (p.ack lo hi).unavailable ++ p.retransSeqs lo hi = p.requested lo hi
  genuine : (p.frames (p.retransSeqs lo hi)).map some = (p.retransSeqs lo hi).map fun n => p.log[n]?

/-- With `count` frames published: a published number is asked for, the request ends before it starts, and the wrapped
length of the request is taken for one over the limit. -/
def Reversed (size count lo hi : Nat) : Prop := hi + 1 < lo ∧ lo < count ∧ (lo < count - size ∨ lo + 9999 < 2 ^ 64)

/-! ## The ring -/

theorem publish_size (p : Publisher) (msgType : MsgType) (payload : List UInt8) :
    (p.publish msgType payload).size = p.size := rfl

theorem feed_concat (size : Nat) (frames : List (MsgType × List UInt8)) (frame : MsgType × List UInt8) :
    Publisher.feed size (frames ++ [frame]) = (Publisher.feed size frames).bind fun p => p.onFrame frame := by
  simp [Publisher.feed, List.foldlM_append]

/-- A ring with slots takes every frame, and keeps the last ones. -/
theorem feed_spec {size : Nat} (h : 0 < size) (frames : List (MsgType × List UInt8)) :
    ∃ p, Publisher.feed size frames = some p ∧ p.size = size ∧ p.Ok ∧ p.log = frames.mapIdx fun n f =>
      ⟨f.1, n, f.2⟩ := by
  induction frames using List.reverseRecOn with
  | nil => exact ⟨.new size, rfl, rfl, new_ok size, rfl⟩
  | append_singleton frames frame ih =>
    obtain ⟨p, hp, hsize, hok, hlog⟩ := ih
    have hlen : p.seq = frames.length := by rw [← hok.length, hlog, List.length_mapIdx]
    refine ⟨p.publish frame.1 frame.2, ?_, by rw [publish_size, hsize], publish_ok hok _ _, ?_⟩
    · rw [feed_concat, hp, Option.bind_some, Publisher.onFrame, if_neg (by omega)]
    · simp [Publisher.publish, hlog, hlen, List.mapIdx_append]

theorem feed_empty_ring {frames : List (MsgType × List UInt8)} (h : frames ≠ []) : Publisher.feed 0 frames = none := by
  cases frames with
  | nil => exact absurd rfl h
  | cons frame frames => rfl

theorem Publisher.Ok.keeps {p : Publisher} (h : p.Ok) {frames : List (MsgType × List UInt8)}
    (hlog : p.log = frames.mapIdx fun n f => ⟨f.1, n, f.2⟩) : p.Keeps frames :=
  ⟨hlog, fun n hold hn => h.ring n (by rw [oldest_eq]; omega) hn⟩

/-- What is sent are frames of the log. -/
theorem Publisher.Ok.genuine_frames {p : Publisher} (h : p.Ok) {seqs : List Nat} (hs : ∀ n ∈ seqs, p.oldest ≤ n ∧
    n < p.seq) :
    (p.frames seqs).map some = seqs.map fun n => p.log[n]? := by
  induction seqs with
  | nil => rfl
  | cons n seqs ih =>
    obtain ⟨hold, hlt⟩ := hs n List.mem_cons_self
    obtain ⟨f, hf⟩ : ∃ f, p.log[n]? = some f := ⟨_, List.getElem?_eq_getElem (by rw [h.length]; exact hlt)⟩
    have hslot : p.slots (n % p.size) = some f := (h.ring n hold hlt).trans hf
    simp only [Publisher.frames, List.filterMap_cons, hslot, List.map_cons, hf] at ih ⊢
    rw [ih fun m hm => hs m (List.mem_cons_of_mem n hm)]

/-! ## The numbers of an answer -/

theorem filter_lt_range' (a n b : Nat) : (List.range' a n).filter (· < b) = List.range' a (min (a + n) b - a) := by
  induction n generalizing a with
  | zero => simp
  | succ n ih =>
    rw [List.range'_succ, List.filter_cons, ih]
    by_cases h : a < b
    · rw [show min (a + (n + 1)) b - a = (min (a + 1 + n) b - (a + 1)) + 1 by omega, List.range'_succ]
      simp [h]
    · rw [show min (a + (n + 1)) b - a = 0 by omega, show min (a + 1 + n) b - (a + 1) = 0 by omega]
      simp [h]

theorem retransSeqs_eq (p : Publisher) (lo hi : Nat) :
    p.retransSeqs lo hi = List.range' (max lo p.oldest) (min (p.clampTo lo hi + 1) p.seq - max lo p.oldest) := by
  rw [Publisher.retransSeqs, filter_lt_range']
  congr 1
  omega

theorem requested_eq (p : Publisher) (lo hi : Nat) :
    p.requested lo hi = List.range' lo (min 10000 (min (hi + 1) p.seq - lo)) := by
  rw [Publisher.requested]
  exact List.ext_getElem (by simp) (by simp)

/-- The last number, where the request does not wrap: at the limit, or what was asked for and published. -/
theorem clampTo_forward {p : Publisher} {lo hi : Nat} (h0 : 0 < p.seq) (hseq : p.seq < 2 ^ 64)
    (hlo : lo ≤ min hi (p.seq - 1) + 1) :
    p.clampTo lo hi + 1 = lo + min 10000 (min (hi + 1) p.seq - lo) := by
  have hlast : (if p.seq ≤ hi then (if p.seq ≠ 0 then p.seq - 1 else 0) else hi) = min hi (p.seq - 1) := by
    split
    · rw [if_pos (by omega)]
      omega
    · omega
  simp only [Publisher.clampTo, hlast]
  have hmod : (min hi (p.seq - 1) + 2 ^ 64 - lo + 1) % 2 ^ 64 = min hi (p.seq - 1) + 1 - lo := by omega
  rw [hmod]
  split <;> omega

/-- … and where it does: 10000 numbers from `lo` on, or none when these would pass 2 ^ 64. -/
theorem clampTo_reversed {p : Publisher} {lo hi : Nat} (hlo64 : lo < 2 ^ 64) (hlt : hi + 1 < lo) (hlo : lo < p.seq) :
    (lo + 9999 < 2 ^ 64 → p.clampTo lo hi = lo + 9999) ∧
      (2 ^ 64 ≤ lo + 9999 → (p.clampTo lo hi + 1) % 2 ^ 64 < lo ∧ p.clampTo lo hi < lo) := by
  have hlast : (if p.seq ≤ hi then (if p.seq ≠ 0 then p.seq - 1 else 0) else hi) = hi := if_neg (by omega)
  simp only [Publisher.clampTo, hlast]
  have hmod : (hi + 2 ^ 64 - lo + 1) % 2 ^ 64 = hi + 2 ^ 64 - lo + 1 := Nat.mod_eq_of_lt (by omega)
  rw [hmod]
  constructor
  · intro h
    split <;> omega
  · intro h
    split <;> omega

/-- Subtraction of two 64-bit numbers. -/
theorem sub_forward {a b : Nat} (h : b ≤ a) (ha : a < 2 ^ 64) : (a + 2 ^ 64 - b) % 2 ^ 64 = a - b := by omega

theorem sub_wrapped {a b : Nat} (h : a < b) (hb : b < 2 ^ 64) : 0 < (a + 2 ^ 64 - b) % 2 ^ 64 := by omega

theorem oldest_lt {p : Publisher} (hsize : 0 < p.size) (h0 : 0 < p.seq) : p.oldest < p.seq := by
  rw [oldest_eq]
  omega

/-- A request that is not reversed is answered by its own numbers. -/
theorem partition_forward {p : Publisher} (hsize : 0 < p.size) (hseq : p.seq < 2 ^ 64)
    {lo hi : Nat} (hlo : lo < 2 ^ 64) (h : ¬ Reversed p.size p.seq lo hi) :
    List.range' lo (p.ack lo hi).unavailable ++ p.retransSeqs lo hi = p.requested lo hi := by
  rw [retransSeqs_eq, requested_eq]
  simp only [Publisher.ack]
  rcases Nat.eq_zero_or_pos p.seq with h0 | h0
  · have hold : p.oldest = 0 := by rw [oldest_eq]; omega
    simp [h0, hold]
  have hold := oldest_lt hsize h0
  by_cases hfwd : lo ≤ min hi (p.seq - 1) + 1
  · have hto := clampTo_forward h0 hseq hfwd
    have hmod : (p.clampTo lo hi + 1) % 2 ^ 64 = p.clampTo lo hi + 1 := Nat.mod_eq_of_lt (by omega)
    rw [hmod, hto]
    by_cases hlow : lo < p.oldest
    · rw [if_pos hlow, sub_forward (by omega) (by omega)]
      generalize hr : min 10000 (min (hi + 1) p.seq - lo) = r
      by_cases hreach : lo + r ≤ p.oldest
      · rw [show min (lo + r) p.seq - max lo p.oldest = 0 by omega, show min p.oldest (lo + r) - lo = r by omega]
        simp
      · rw [show max lo p.oldest = lo + (p.oldest - lo) by omega,
          show min p.oldest (lo + r) - lo = p.oldest - lo by omega,
          List.range'_append_1]
        congr 1
        omega
    · rw [if_neg hlow, List.range'_zero, List.nil_append, show max lo p.oldest = lo by omega]
      congr 1
      omega
  · -- nothing of the request is published, and the wrapped limit does not reach the ring
    have hun : ¬ lo < p.oldest := by
      intro hlow
      exact h ⟨by omega, by omega, .inl (by rwa [← oldest_eq])⟩
    rw [if_neg hun, show min 10000 (min (hi + 1) p.seq - lo) = 0 by omega]
    by_cases hlt : lo < p.seq
    · have hwrap : 2 ^ 64 ≤ lo + 9999 := by
        by_contra hno
        exact h ⟨by omega, hlt, .inr (by omega)⟩
      have hrev : hi + 1 < lo := by omega
      have hto := (clampTo_reversed hlo hrev hlt).2 hwrap
      rw [show min (p.clampTo lo hi + 1) p.seq - max lo p.oldest = 0 by omega]
      rfl
    · rw [show min (p.clampTo lo hi + 1) p.seq - max lo p.oldest = 0 by omega]
      rfl

/-- A reversed one asks for nothing, and gets frames or numbers all the same. -/
theorem partition_reversed {p : Publisher} (hsize : 0 < p.size) (hseq : p.seq < 2 ^ 64)
    {lo hi : Nat} (h : Reversed p.size p.seq lo hi) :
    List.range' lo (p.ack lo hi).unavailable ++ p.retransSeqs lo hi ≠ p.requested lo hi := by
  obtain ⟨hlt, hlo, hwhy⟩ := h
  rw [← oldest_eq] at hwhy
  have hold := oldest_lt hsize (Nat.lt_of_le_of_lt (Nat.zero_le lo) hlo)
  obtain ⟨hlimit, hover⟩ := clampTo_reversed (Nat.lt_trans hlo hseq) hlt hlo
  rw [retransSeqs_eq, requested_eq, show min 10000 (min (hi + 1) p.seq - lo) = 0 by omega]
  intro heq
  have hlen := congrArg List.length heq
  simp only [List.length_append, List.length_range', Publisher.ack] at hlen
  by_cases hlow : lo < p.oldest
  · rw [if_pos hlow] at hlen
    by_cases hw : lo + 9999 < 2 ^ 64
    · rw [hlimit hw, Nat.mod_eq_of_lt (by omega)] at hlen
      omega
    · have hmod := (hover (Nat.not_lt.1 hw)).1
      have := sub_wrapped (a := min p.oldest ((p.clampTo lo hi + 1) % 2 ^ 64)) (b := lo) (by omega) (by omega)
      omega
  · have hw : lo + 9999 < 2 ^ 64 := hwhy.resolve_left hlow
    rw [hlimit hw] at hlen
    omega

/-! ## Requests -/

/-- The publisher has taken the history, and this request is answered rightly. -/
def Serves (size : Nat) (frames : List (MsgType × List UInt8)) (lo hi : UInt64) : Prop :=
  ∃ p, Publisher.feed size frames = some p ∧ p.Keeps frames ∧ p.Answered lo.toNat hi.toNat

/-- **A request is answered rightly exactly when the ring has slots for what was published and the request is not
reversed.** -/
theorem serves_iff (size : Nat) (frames : List (MsgType × List UInt8)) (hcount : frames.length < 2 ^ 64)
    (lo hi : UInt64) :
    Serves size frames lo hi ↔ (0 < size ∨ frames = []) ∧ ¬ Reversed size frames.length lo.toNat hi.toNat := by
  rcases Nat.eq_zero_or_pos size with rfl | hsize
  · by_cases hframes : frames = []
    · subst hframes
      refine iff_of_true ⟨.new 0, rfl, (new_ok 0).keeps rfl, ⟨?_, ?_⟩⟩
        ⟨.inr rfl, fun h => absurd h.2.1 (Nat.not_lt_zero _)⟩
      · rw [retransSeqs_eq, requested_eq]
        simp [Publisher.new, Publisher.ack, oldest_eq]
      · rw [retransSeqs_eq]
        simp [Publisher.new, Publisher.frames]
    · refine iff_of_false ?_ fun h => by simp [hframes] at h
      rintro ⟨p, hp, -⟩
      rw [feed_empty_ring hframes] at hp
      cases hp
  · obtain ⟨p, hp, rfl, hok, hlog⟩ := feed_spec hsize frames
    have hseq : p.seq = frames.length := by rw [← hok.length, hlog, List.length_mapIdx]
    rw [← hseq] at hcount ⊢
    constructor
    · rintro ⟨p', hp', -, ha⟩
      obtain rfl : p = p' := Option.some.inj (hp.symm.trans hp')
      exact ⟨.inl hsize, fun h => partition_reversed hsize hcount h ha.partition⟩
    · rintro ⟨-, h⟩
      exact ⟨p, hp, hok.keeps hlog, partition_forward hsize hcount lo.toNat_lt h, hok.genuine_frames fun n hn =>
        mem_retransSeqs hn⟩

/-- Six heartbeats in a ring of two, and a request from 1 to 5: 1, 2 and 3 are gone. -/
theorem serves_wrapped : Serves 2 (.replicate 6 (.heartbeat, [])) 1 5 :=
  (serves_iff 2 (.replicate 6 (.heartbeat, [])) (by decide) 1 5).2 ⟨.inl (by decide), fun h => absurd h.1 (by decide)⟩

/-- The same ring, asked from 4 to 2: 4 and 5 are sent. -/
theorem reversed_is_served : ¬ Serves 2 (.replicate 6 (.heartbeat, [])) 4 2 := by
  rintro ⟨p', hp', -, ha⟩
  obtain ⟨p, hp, hsize, hok, hlog⟩ := feed_spec (show 0 < 2 by decide) (.replicate 6 (.heartbeat, []))
  obtain rfl : p = p' := Option.some.inj (hp.symm.trans hp')
  have hseq : p.seq = 6 := by rw [← hok.length, hlog, List.length_mapIdx, List.length_replicate]
  refine partition_reversed (by omega) (by omega) ?_ ha.partition
  rw [hsize, hseq]
  exact ⟨by decide, by decide, .inr (by decide)⟩

end Mcast

import MarketFeed.Protocol.Frame
import MarketFeed.Lib.Scan
/-!
# `FrameParser` (src/mdfeed/protocol.py:53-149)

| here | there |
|---|---|
| `find` | `bytearray.find` |
| `Status` | `_OK`, `_NEED_MORE`, `_RETRY` and the frame |
| `tryOne`, `resync` | `_try_one`, `_resync` |
| `advance` | the `while True` of `feed` up to its next `yield` or `return` |

`on_resync` takes nothing and its result is dropped. What a stream holds is also said without a buffer:
`reader` decides place by place, and a step of the parser leaves what is to be read as it was
(`tryOne_read`).
-/

namespace Mdfp

open Gateway (Bytes)

/-- The first place from `start` on. -/
def find (sub b : Bytes) (start : ℕ) : Option ℕ :=
  (List.range' start (b.length + 1 - start)).find? fun i => slice b i (i + sub.length) = sub

structure FrameParser where
  buf : Bytes
  resyncCount : ℕ
  crcErrorCount : ℕ
  deriving DecidableEq

inductive Status where
  | ok (frame : Frame)
  | needMore
  | retry
  deriving DecidableEq

namespace FrameParser

def init : FrameParser := ⟨[], 0, 0⟩

def resync (p : FrameParser) : Status × FrameParser :=
  match find MAGIC p.buf 1 with
  | none =>
    let keep := MAGIC.length - 1
    (.needMore, { p with buf := p.buf.drop (p.buf.length - keep), resyncCount := p.resyncCount + 1 })
  | some idx => (.retry, { p with buf := p.buf.drop idx, resyncCount := p.resyncCount + 1 })

def tryOne (p : FrameParser) : Status × FrameParser :=
  if p.buf.length < HEADER_SIZE then (.needMore, p)
  else if slice p.buf 0 4 ≠ MAGIC then p.resync
  else
    let h := header p.buf
    if h.ver ≠ VERSION ∨ MAX_PAYLOAD < h.length then p.resync
    else
      let total := HEADER_SIZE + h.length + CRC_SIZE
      if p.buf.length < total then (.needMore, p)
      else
        let body := slice p.buf 0 (HEADER_SIZE + h.length)
        let crc := getBe (slice p.buf (HEADER_SIZE + h.length) total)
        if crc ≠ (crc32 body).toNat then resync { p with crcErrorCount := p.crcErrorCount + 1 }
        else (.ok ⟨h.msgType, h.seq, h.flags, body.drop HEADER_SIZE⟩, { p with buf := p.buf.drop total })

end FrameParser

/-! ## Searching -/

theorem find_some {sub b : Bytes} {start i : ℕ} (h : find sub b start = some i) :
    start ≤ i ∧ slice b i (i + sub.length) = sub ∧ ∀ j, start ≤ j → j < i → slice b j (j + sub.length) ≠ sub := by
  obtain ⟨hi, hmem, hbefore⟩ := List.find?_range'_eq_some.1 h
  refine ⟨(List.mem_range'_1.1 hmem).1, of_decide_eq_true hi, fun j hj hlt => ?_⟩
  simpa using hbefore j hj hlt

theorem find_none {sub b : Bytes} {start : ℕ} (h : find sub b start = none) {j : ℕ} (hj : start ≤ j)
    (hle : j ≤ b.length) :
    slice b j (j + sub.length) ≠ sub := by
  have := List.find?_eq_none.1 h j (by rw [List.mem_range'_1]; omega)
  simpa using this

/-! ## Place by place -/

inductive Event where
  | frame (f : Frame)
  | crcError
  deriving DecidableEq

def frameAt (b : Bytes) : Frame :=
  ⟨(header b).msgType, (header b).seq, (header b).flags, (slice b 0 (HEADER_SIZE + (header b).length)).drop HEADER_SIZE⟩

/-- What the place at the front of `b` holds, as soon as it is known. -/
def look (b : Bytes) : Option (Option Event × ℕ) :=
  if b.length < MAGIC.length then none
  else if slice b 0 4 ≠ MAGIC then some (none, 1)
  else if b.length < HEADER_SIZE then none
  else if (header b).ver ≠ VERSION ∨ MAX_PAYLOAD < (header b).length then some (none, 1)
  else if b.length < HEADER_SIZE + (header b).length + CRC_SIZE then none
  else if getBe (slice b (HEADER_SIZE + (header b).length) (HEADER_SIZE + (header b).length + CRC_SIZE)) ≠
      (crc32 (slice b 0 (HEADER_SIZE + (header b).length))).toNat then some (some .crcError, 1)
  else some (some (.frame (frameAt b)), HEADER_SIZE + (header b).length + CRC_SIZE)

theorem look_pos {b : Bytes} {o : Option Event} {n : ℕ} (h : look b = some (o, n)) : 0 < n ∧ n ≤ b.length := by
  have hmagic : MAGIC.length = 4 := rfl
  have hheader : HEADER_SIZE = 20 := rfl
  unfold look at h
  split at h
  · cases h
  · split at h
    · cases h
      omega
    · split at h
      · cases h
      · split at h
        · cases h
          omega
        · split at h
          · cases h
          · split at h
            · cases h
              omega
            · cases h
              omega

/-- A place decided on a part of the stream is decided the same on all of it. -/
theorem look_stable {b : Bytes} {v : Option Event × ℕ} (h : look b = some v) (c : Bytes) : look (b ++ c) = some v := by
  unfold look at h
  split at h
  · cases h
  · rename_i h4
    have hlen : ¬(b ++ c).length < MAGIC.length := by
      rw [List.length_append]
      omega
    have hmagic : slice (b ++ c) 0 4 = slice b 0 4 := slice_append (Nat.not_lt.1 h4) 0 c
    unfold look
    rw [if_neg hlen, hmagic]
    split at h
    · rename_i hm
      rwa [if_pos hm]
    · rename_i hm
      rw [if_neg hm]
      split at h
      · cases h
      · rename_i h20
        have hlen' : ¬(b ++ c).length < HEADER_SIZE := by
          rw [List.length_append]
          omega
        rw [if_neg hlen', header_append (Nat.not_lt.1 h20)]
        split at h
        · rename_i hbad
          rwa [if_pos hbad]
        · rename_i hbad
          rw [if_neg hbad]
          split at h
          · cases h
          · rename_i htotal
            have htotal' : ¬(b ++ c).length < HEADER_SIZE + (header b).length + CRC_SIZE := by
              rw [List.length_append]
              omega
            rwa [if_neg htotal', slice_append (Nat.not_lt.1 htotal), slice_append (by omega), frameAt,
              header_append (Nat.not_lt.1 h20),
              slice_append (by omega)]

def reader : Scan.Reader UInt8 Event := ⟨look, look_pos, look_stable⟩

theorem reader_look (b : Bytes) : reader.look b = look b := rfl

def frames (l : List Event) : List Frame := l.filterMap fun
  | .frame f => some f
  | .crcError => none

def errors (l : List Event) : ℕ := l.countP fun
  | .frame _ => false
  | .crcError => true

@[simp] theorem frames_append (l m : List Event) : frames (l ++ m) = frames l ++ frames m := List.filterMap_append

@[simp] theorem errors_append (l m : List Event) : errors (l ++ m) = errors l + errors m := List.countP_append

/-- The frames of a stream, and its checksum errors. -/
def framesOf (b : Bytes) : List Frame := frames (reader.read b).1

def errorsOf (b : Bytes) : ℕ := errors (reader.read b).1

/-- No frame fits in less than a header and a checksum. -/
theorem read_short {b : Bytes} (h : b.length < HEADER_SIZE + CRC_SIZE) : (reader.read b).1 = [] := by
  have hmagic : MAGIC.length = 4 := rfl
  induction b using Scan.read_induction reader with
  | wait b hb => rw [Scan.read_wait reader hb]
  | take b o n hb ih =>
    rw [Scan.read_take reader hb]
    have hlook : look b = some (o, n) := hb
    have hnone : o = none := by
      unfold look at hlook
      split at hlook
      · cases hlook
      · split at hlook
        · cases hlook
          rfl
        · split at hlook
          · cases hlook
          · split at hlook
            · cases hlook
              rfl
            · rw [if_pos (by omega)] at hlook
              cases hlook
    rw [hnone, ih ?_]
    · rfl
    · rw [List.length_drop]
      omega

/-! ## A step of the parser -/

def Status.frames : Status → List Frame
  | .ok f => [f]
  | .needMore => []
  | .retry => []

theorem look_foreign {b : Bytes} (h4 : MAGIC.length ≤ b.length) (hm : slice b 0 4 ≠ MAGIC) :
    look b = some (none, 1) := by
  rw [look, if_neg (Nat.not_lt.2 h4), if_pos hm]

/-- What `find` skipped holds no anchor. -/
theorem read_skip {b : Bytes} {k : ℕ} (h : ∀ j, 0 < j → j < k → j + MAGIC.length ≤ b.length ∧
    slice b j (j + MAGIC.length) ≠ MAGIC) (hk : 0 < k) :
    reader.read (b.drop 1) = reader.read (b.drop k) := by
  have hskip := @Scan.read_skip _ _ reader (b.drop 1) (k - 1) ?_
  · rw [hskip, List.drop_drop, Nat.add_sub_cancel' hk]
  · intro j hj
    obtain ⟨hlen, hne⟩ := h (1 + j) (by omega) (by omega)
    rw [List.drop_drop]
    refine look_foreign ?_ ?_
    · rw [List.length_drop]
      omega
    · rwa [slice_drop]

namespace FrameParser

/-- `_resync` moves up to the next anchor, or leaves three bytes. -/
theorem resync_cases (p : FrameParser) (h : MAGIC.length ≤ p.buf.length) : ∃ k, 0 < k ∧ k ≤ p.buf.length ∧
    (∀ j, 0 < j → j < k → j + MAGIC.length ≤ p.buf.length ∧ slice p.buf j (j + MAGIC.length) ≠ MAGIC) ∧
    p.resync.2 = { p with buf := p.buf.drop k, resyncCount := p.resyncCount + 1 } ∧
    (p.resync.1 = .retry ∨ p.resync.1 = .needMore ∧ p.buf.length = k + 3) := by
  have hmagic : MAGIC.length = 4 := rfl
  cases hf : find MAGIC p.buf 1 with
  | none =>
    refine ⟨p.buf.length - 3, by omega, Nat.sub_le _ _, fun j hj hlt => ⟨by omega, find_none hf hj (by omega)⟩, ?_,
      .inr ⟨?_, by omega⟩⟩
    · rw [resync, hf]
      rfl
    · rw [resync, hf]
  | some k =>
    obtain ⟨hk, hat, hbefore⟩ := find_some hf
    have hfits : k + 4 ≤ p.buf.length := by
      have hlen := congrArg List.length hat
      rw [slice, List.length_take, List.length_drop] at hlen
      omega
    refine ⟨k, hk, by omega, fun j hj hlt => ⟨by omega, hbefore j hj hlt⟩, ?_, .inl ?_⟩
    · rw [resync, hf]
    · rw [resync, hf]

/-- What one `_try_one` read off the buffer, and what it left there. -/
structure Reads (p : FrameParser) (st : Status) (p' : FrameParser) (events : List Event) : Prop where
  read : reader.read p.buf = (events ++ (reader.read p'.buf).1, (reader.read p'.buf).2)
  frames : frames events = st.frames
  errors : p'.crcErrorCount = p.crcErrorCount + errors events
  shrinks : st ≠ .needMore → p'.buf.length < p.buf.length
  waits : st = .needMore → (reader.read p'.buf).1 = [] ∧ p'.buf.length < MAX_FRAME

/-- A place given up, with a checksum error or without. -/
theorem resync_reads {p : FrameParser} {o : Option Event} (h : MAGIC.length ≤ p.buf.length)
    (hlook : look p.buf = some (o, 1))
    (hframes : Mdfp.frames o.toList = []) {n : ℕ} (hn : p.crcErrorCount = n + Mdfp.errors o.toList) :
    Reads { p with crcErrorCount := n } p.resync.1 p.resync.2 o.toList := by
  obtain ⟨k, hk, hle, hskip, hres, hst⟩ := p.resync_cases h
  have hread : reader.read p.buf = (o.toList ++ (reader.read p.resync.2.buf).1, (reader.read p.resync.2.buf).2) := by
    rw [hres, ← read_skip hskip hk]
    exact Scan.read_take reader hlook
  have hlen : p.resync.2.buf.length = p.buf.length - k := by rw [hres, List.length_drop]
  refine ⟨hread, ?_, ?_, ?_, ?_⟩
  · rcases hst with hst | ⟨hst, -⟩ <;> rw [hframes, hst] <;> rfl
  · rw [hres]
    exact hn
  · intro _
    show _ < p.buf.length
    omega
  · intro hwait
    rcases hst with hst | ⟨-, hlen3⟩
    · rw [hst] at hwait
      cases hwait
    · have hthree : p.resync.2.buf.length = 3 := by omega
      exact ⟨read_short (by rw [hthree]; decide), by rw [hthree]; decide⟩

/-- **A step of the parser reads what the place at the front of the buffer holds.** -/
theorem tryOne_reads (p : FrameParser) : ∃ events, Reads p p.tryOne.1 p.tryOne.2 events := by
  have hmagic : MAGIC.length = 4 := rfl
  have hheader : HEADER_SIZE = 20 := rfl
  unfold tryOne
  split
  · rename_i hlen
    exact ⟨[], rfl, rfl, rfl, fun h => absurd rfl h,
      fun _ => ⟨read_short (Nat.lt_of_lt_of_le hlen (by decide)), Nat.lt_of_lt_of_le hlen (by decide)⟩⟩
  · rename_i hlen
    have h4 : MAGIC.length ≤ p.buf.length := by omega
    split
    · rename_i hm
      exact ⟨_, resync_reads h4 (look_foreign h4 hm) rfl rfl⟩
    · rename_i hm
      simp only
      split
      · rename_i hbad
        refine ⟨_, resync_reads h4 (o := none) ?_ rfl rfl⟩
        rw [look, if_neg (Nat.not_lt.2 h4), if_neg hm, if_neg hlen, if_pos hbad]
      · rename_i hbad
        split
        · rename_i htotal
          have hlook : look p.buf = none := by
            rw [look, if_neg (Nat.not_lt.2 h4), if_neg hm, if_neg hlen, if_neg hbad, if_pos htotal]
          refine ⟨[], rfl, rfl, rfl, fun h => absurd rfl h, fun _ => ⟨?_, ?_⟩⟩
          · rw [Scan.read_wait reader hlook]
          · show p.buf.length < HEADER_SIZE + MAX_PAYLOAD + CRC_SIZE
            omega
        · rename_i htotal
          split
          · rename_i hcrc
            refine ⟨_, resync_reads (p := { p with crcErrorCount := p.crcErrorCount + 1 }) h4
              (o := some .crcError) ?_ rfl rfl⟩
            rw [look, if_neg (Nat.not_lt.2 h4), if_neg hm, if_neg hlen, if_neg hbad, if_neg htotal, if_pos hcrc]
          · rename_i hcrc
            have hlook : look p.buf = some (some (.frame (frameAt p.buf)), HEADER_SIZE + (header p.buf).length +
                CRC_SIZE) := by
              rw [look, if_neg (Nat.not_lt.2 h4), if_neg hm, if_neg hlen, if_neg hbad, if_neg htotal, if_neg hcrc]
            refine ⟨[.frame (frameAt p.buf)], Scan.read_take reader hlook, rfl, rfl, fun _ => ?_, fun h => by cases h⟩
            rw [List.length_drop]
            omega

/-! ## Up to the next frame -/

def advance (p : FrameParser) : Option Frame × FrameParser :=
  match _h : p.tryOne with
  | (.needMore, p') => (none, p')
  | (.retry, p') => advance p'
  | (.ok frame, p') => (some frame, p')
termination_by p.buf.length
decreasing_by
  obtain ⟨_, hreads⟩ := p.tryOne_reads
  rw [‹p.tryOne = _›] at hreads
  exact hreads.shrinks Status.noConfusion

/-- `advance`, one `_try_one` at a time. -/
theorem advance_cases (p : FrameParser) : (p.tryOne.1 = .needMore ∧ p.advance = (none, p.tryOne.2)) ∨
    (p.tryOne.1 = .retry ∧ p.advance = p.tryOne.2.advance) ∨ ∃ f, p.tryOne.1 = .ok f ∧
    p.advance = (some f, p.tryOne.2) := by
  rw [advance]
  split
  · rename_i hst
    exact .inl ⟨by rw [hst], by rw [hst]⟩
  · rename_i hst
    exact .inr (.inl ⟨by rw [hst], by rw [hst]⟩)
  · rename_i hst
    exact .inr (.inr ⟨_, by rw [hst], by rw [hst]⟩)

/-- From `p` to `p'` the frames `out` came out, and whatever follows is read the same after. -/
structure Continues (p p' : FrameParser) (out : List Frame) : Prop where
  frames : ∀ c, framesOf (p.buf ++ c) = out ++ framesOf (p'.buf ++ c)
  errors : ∀ c, p.crcErrorCount + errorsOf (p.buf ++ c) = p'.crcErrorCount + errorsOf (p'.buf ++ c)

/-- Nothing more comes out of the buffer, and it is short. -/
structure Idle (p : FrameParser) : Prop where
  quiet : (reader.read p.buf).1 = []
  short : p.buf.length < MAX_FRAME

theorem Continues.trans {p p' p'' : FrameParser} {out out' : List Frame} (h : Continues p p' out)
    (h' : Continues p' p'' out') :
    Continues p p'' (out ++ out') :=
  ⟨fun c => by rw [h.frames, h'.frames, List.append_assoc], fun c => (h.errors c).trans (h'.errors c)⟩

theorem Reads.continues {p p' : FrameParser} {st : Status} {events : List Event} (h : Reads p st p' events) :
    Continues p p' st.frames := by
  have hread (c : Bytes) : (reader.read (p.buf ++ c)).1 = events ++ (reader.read (p'.buf ++ c)).1 := by
    rw [Scan.read_append, h.read, Scan.read_append reader p'.buf, List.append_assoc]
  refine ⟨fun c => ?_, fun c => ?_⟩
  · rw [framesOf, hread, frames_append, h.frames]
    rfl
  · rw [errorsOf, hread, errors_append, h.errors, errorsOf]
    omega

/-- **Up to the next frame**: it is the next one read, or nothing is left to come out. -/
theorem advance_spec (p : FrameParser) : Continues p p.advance.2 p.advance.1.toList ∧
    (p.advance.1 = none → Idle p.advance.2) ∧
    (p.advance.1 ≠ none → p.advance.2.buf.length < p.buf.length) := by
  induction hlen : p.buf.length using Nat.strongRecOn generalizing p with
  | ind n ih =>
    obtain ⟨events, hreads⟩ := p.tryOne_reads
    have hcont := hreads.continues
    rcases p.advance_cases with ⟨hst, hadv⟩ | ⟨hst, hadv⟩ | ⟨f, hst, hadv⟩
    · rw [hst] at hcont
      rw [hadv]
      exact ⟨hcont, fun _ => ⟨(hreads.waits hst).1, (hreads.waits hst).2⟩, fun h => absurd rfl h⟩
    · have hlt := hreads.shrinks (by rw [hst]; exact Status.noConfusion)
      obtain ⟨hcont', hidle, hshrink⟩ := ih _ (hlen ▸ hlt) p.tryOne.2 rfl
      rw [hst] at hcont
      rw [hadv]
      exact ⟨hcont.trans hcont', hidle, fun h => by have := hshrink h; omega⟩
    · rw [hst] at hcont
      rw [hadv]
      exact ⟨hcont, fun h => by (cases h), fun _ => hlen ▸ hreads.shrinks (by rw [hst]; exact Status.noConfusion)⟩

end FrameParser

end Mdfp

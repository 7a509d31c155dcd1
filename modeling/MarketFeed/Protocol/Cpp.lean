import MarketFeed.Protocol.Segments
import Mathlib.Data.List.Induction
/-!
# The C++ parser (cpp/include/mdfp/protocol.hpp:42-48, :102-185)

| here | there |
|---|---|
| `getBe16`, `getBe32`, `getBe64` | `get_be16`, `get_be32`, `get_be64` |
| `findMagic` | the loop of `resync` |
| `feed`, `compact` | `feed`, `compact` |

The buffer is not cut at each frame: `rd` moves over it and `compact` drops what is behind. A callback
that throws leaves `feed` after its frame, as an exception leaves the loop over the other parser's
generator (`each`). With `rd` taken off, each step of one parser is a step of the other (`Same`).
-/

namespace Mdfp

open Gateway (Bytes)

/-- `for frame in feed(..): on_frame(frame)`. -/
def FrameParser.each (onFrame : Frame → Bool) (p : FrameParser) : List Frame × FrameParser :=
  match _h : p.advance with
  | (none, p') => ([], p')
  | (some frame, p') => if onFrame frame then ([frame], p') else (frame :: (each onFrame p').1, (each onFrame p').2)
termination_by p.buf.length
decreasing_by all_goals
  have hlt := p.advance_spec.2.2
  rw [‹p.advance = _›] at hlt
  exact hlt (Option.some_ne_none frame)

namespace Cpp

def getBe16 (p : Bytes) : UInt16 := (p.getD 0 0).toUInt16 <<< 8 ||| (p.getD 1 0).toUInt16

def getBe32 (p : Bytes) : UInt32 := (p.take 4).foldl (fun v x => v <<< 8 ||| x.toUInt32) 0

def getBe64 (p : Bytes) : UInt64 := (p.take 8).foldl (fun v x => v <<< 8 ||| x.toUInt64) 0

/-- `for (size_t i = 1; i + 4 <= avail; ++i)`. -/
def findMagic (base : Bytes) (avail i : ℕ) : Option ℕ :=
  if i + 4 ≤ avail then if (base.drop i).take 4 = MAGIC then some i else findMagic base avail (i + 1) else none
termination_by avail - i

structure FrameParser where
  buf : Bytes
  rd : ℕ
  resyncCount : UInt64
  crcErrorCount : UInt64
  deriving DecidableEq

namespace FrameParser

def init : FrameParser := ⟨[], 0, 0, 0⟩

def resync (p : FrameParser) : Status × FrameParser :=
  let avail := p.buf.length - p.rd
  match findMagic (p.buf.drop p.rd) avail 1 with
  | none =>
    let keep := MAGIC.length - 1
    (.needMore, { p with rd := if keep < avail then p.rd + (avail - keep) else p.rd, resyncCount := p.resyncCount + 1 })
  | some idx => (.retry, { p with rd := p.rd + idx, resyncCount := p.resyncCount + 1 })

/-- `h` is what is read; a frame is not consumed here. -/
def tryOne (p : FrameParser) : Status × FrameParser :=
  let avail := p.buf.length - p.rd
  if avail < HEADER_SIZE then (.needMore, p)
  else
    let h := p.buf.drop p.rd
    if h.take 4 ≠ MAGIC then p.resync
    else
      let ver := h.getD 4 0
      let length := (getBe32 (h.drop 16)).toNat
      if ver ≠ VERSION ∨ MAX_PAYLOAD < length then p.resync
      else
        let total := HEADER_SIZE + length + CRC_SIZE
        if avail < total then (.needMore, p)
        else
          let want := getBe32 (h.drop (HEADER_SIZE + length))
          if want ≠ Gateway.crc32 (h.take (HEADER_SIZE + length)) then
            resync { p with crcErrorCount := p.crcErrorCount + 1 }
          else (.ok ⟨h.getD 5 0, getBe64 (h.drop 8), getBe16 (h.drop 6), (h.drop HEADER_SIZE).take length⟩, p)

def compact (p : FrameParser) : FrameParser :=
  if p.rd = 0 then p
  else if p.rd = p.buf.length then { p with buf := [], rd := 0 }
  else if 4096 ≤ p.rd ∧ p.buf.length ≤ p.rd * 2 then { p with buf := p.buf.drop p.rd, rd := 0 }
  else p

end FrameParser

/-! ## Numbers -/

theorem shift_byte (w v : ℕ) (x : UInt8) :
    BitVec.ofNat w v <<< 8 ||| x.toBitVec.setWidth w = BitVec.ofNat w (v * 256 + x.toNat) := by
  apply BitVec.eq_of_getLsbD_eq
  intro i hi
  have hlt : x.toNat < 2 ^ 8 := x.toNat_lt
  have hbit : (v * 256 + x.toNat).testBit i = if i < 8 then x.toNat.testBit i else v.testBit (i - 8) := by
    rw [Nat.mul_comm]
    exact Nat.testBit_two_pow_mul_add v hlt i
  have hx : x.toBitVec.getLsbD i = x.toNat.testBit i := rfl
  rw [BitVec.getLsbD_or, BitVec.getLsbD_shiftLeft, BitVec.getLsbD_setWidth, BitVec.getLsbD_ofNat,
    BitVec.getLsbD_ofNat, hbit, hx]
  by_cases h8 : i < 8
  · simp [h8, hi]
  · have hhigh : x.toNat.testBit i = false :=
      Nat.testBit_lt_two_pow (Nat.lt_of_lt_of_le hlt (Nat.pow_le_pow_right (by omega) (by omega)))
    have hsub : i - 8 < w := by omega
    simp [h8, hi, hhigh, hsub]

theorem getBe32_eq (p : Bytes) : getBe32 p = UInt32.ofNat (getBe (p.take 4)) := by
  have hstep (v : ℕ) (x : UInt8) : UInt32.ofNat v <<< 8 ||| x.toUInt32 = UInt32.ofNat (v * 256 + x.toNat) :=
    UInt32.toBitVec_inj.1 (shift_byte 32 v x)
  have hfold (l : Bytes) (v : ℕ) : l.foldl (fun (u : UInt32) x => u <<< 8 ||| x.toUInt32) (UInt32.ofNat v) =
      UInt32.ofNat (l.foldl (fun v x => v * 256 + x.toNat) v) := by
    induction l generalizing v with
    | nil => rfl
    | cons x l ih => rw [List.foldl_cons, List.foldl_cons, hstep, ih]
  exact hfold (p.take 4) 0

theorem getBe64_eq (p : Bytes) : getBe64 p = UInt64.ofNat (getBe (p.take 8)) := by
  have hstep (v : ℕ) (x : UInt8) : UInt64.ofNat v <<< 8 ||| x.toUInt64 = UInt64.ofNat (v * 256 + x.toNat) :=
    UInt64.toBitVec_inj.1 (shift_byte 64 v x)
  have hfold (l : Bytes) (v : ℕ) : l.foldl (fun (u : UInt64) x => u <<< 8 ||| x.toUInt64) (UInt64.ofNat v) =
      UInt64.ofNat (l.foldl (fun v x => v * 256 + x.toNat) v) := by
    induction l generalizing v with
    | nil => rfl
    | cons x l ih => rw [List.foldl_cons, List.foldl_cons, hstep, ih]
  exact hfold (p.take 8) 0

theorem getBe16_eq {p : Bytes} (h : 2 ≤ p.length) : getBe16 p = UInt16.ofNat (getBe (p.take 2)) := by
  rcases p with _ | ⟨x, _ | ⟨y, p⟩⟩
  · cases h
  · exact absurd h (Nat.not_le.2 (Nat.lt_succ_self 1))
  · have hstep : x.toUInt16 <<< 8 ||| y.toUInt16 = UInt16.ofNat (x.toNat * 256 + y.toNat) := by
      have h16 : UInt16.ofNat x.toNat = x.toUInt16 := UInt16.toNat_inj.1 (by simp)
      rw [← h16]
      exact UInt16.toBitVec_inj.1 (shift_byte 16 x.toNat y)
    have hbe : getBe [x, y] = x.toNat * 256 + y.toNat := by simp [getBe]
    rw [List.take_succ_cons, List.take_succ_cons, List.take_zero, hbe, ← hstep]
    rfl

theorem getBe_lt (b : Bytes) : getBe b < 256 ^ b.length := by
  induction b using List.reverseRecOn with
  | nil => exact Nat.one_pos
  | append_singleton b x ih =>
    have hx : x.toNat < 256 := x.toNat_lt
    rw [getBe_concat, List.length_append, List.length_singleton, Nat.pow_succ]
    omega

theorem slice_one {b : Bytes} {i : ℕ} (h : i < b.length) : slice b i (i + 1) = [b.getD i 0] := by
  rw [slice, Nat.add_sub_cancel_left, List.drop_eq_getElem_cons h, List.take_succ_cons, List.take_zero,
    List.getD_eq_getElem?_getD, List.getElem?_eq_getElem h,
    Option.getD_some]

/-- The fields read through pointers are those of the header. -/
theorem header_eq {h : Bytes} (hlen : HEADER_SIZE ≤ h.length) :
    header h = ⟨h.getD 4 0, h.getD 5 0, getBe16 (h.drop 6), getBe64 (h.drop 8), (getBe32 (h.drop 16)).toNat⟩ := by
  have h20 : HEADER_SIZE = 20 := rfl
  have hbyte (x : UInt8) : UInt8.ofNat (getBe [x]) = x := by rw [getBe_single, UInt8.ofNat_toNat]
  have h16 : getBe16 (h.drop 6) = UInt16.ofNat (getBe (slice h 6 8)) := getBe16_eq (by rw [List.length_drop]; omega)
  have hlen4 : getBe (slice h 16 20) < 2 ^ 32 := by
    have := getBe_lt (slice h 16 20)
    rwa [@slice_length h 16 20 hlen] at this
  have h32 : (getBe32 (h.drop 16)).toNat = getBe (slice h 16 20) := by
    rw [getBe32_eq, UInt32.toNat_ofNat']
    exact Nat.mod_eq_of_lt hlen4
  rw [header, @slice_one h 4 (by omega), @slice_one h 5 (by omega), hbyte, hbyte, h16, h32, getBe64_eq]
  rfl

/-! ## The search -/

theorem findMagic_eq (b : Bytes) (i : ℕ) : findMagic b b.length i = find MAGIC b i := by
  have hmagic : MAGIC.length = 4 := rfl
  induction hn : b.length + 1 - i using Nat.strongRecOn generalizing i with
  | ind n ih =>
    rw [findMagic]
    by_cases hle : i + 4 ≤ b.length
    · have hat : (b.drop i).take 4 = slice b i (i + MAGIC.length) := by rw [slice, Nat.add_sub_cancel_left, hmagic]
      have hfind : find MAGIC b i = if slice b i (i + MAGIC.length) = MAGIC then some i else find MAGIC b (i + 1) := by
        rw [find, find, show b.length + 1 - i = b.length + 1 - (i + 1) + 1 by omega, List.range'_succ, List.find?_cons]
        by_cases hm : slice b i (i + MAGIC.length) = MAGIC
        · rw [if_pos hm, decide_eq_true hm]
        · rw [if_neg hm, decide_eq_false hm]
      rw [if_pos hle, hat, hfind, ih _ (by omega) (i + 1) rfl]
    · rw [if_neg hle]
      refine (List.find?_eq_none.2 fun j hj => ?_).symm
      have hij := (List.mem_range'_1.1 hj).1
      rw [decide_eq_true_eq]
      intro hat
      have hlen := congrArg List.length hat
      rw [slice, List.length_take, List.length_drop] at hlen
      omega

/-! ## Step by step -/

namespace FrameParser

/-- `rd_ += HEADER_SIZE + f.length + CRC_SIZE`. -/
def consume (p : FrameParser) (f : Frame) : FrameParser :=
  { p with rd := p.rd + (HEADER_SIZE + f.payload.length + CRC_SIZE) }

end FrameParser

/-- Up to what lies behind `rd` the two parsers are in the same state. -/
structure Same (c : FrameParser) (p : Mdfp.FrameParser) : Prop where
  buf : c.buf.drop c.rd = p.buf
  rd : c.rd ≤ c.buf.length
  resyncs : c.resyncCount = UInt64.ofNat p.resyncCount
  crcErrors : c.crcErrorCount = UInt64.ofNat p.crcErrorCount

namespace Same

variable {c : FrameParser} {p : Mdfp.FrameParser}

theorem avail (h : Same c p) : c.buf.length - c.rd = p.buf.length := by
  rw [← h.buf, List.length_drop]

/-- `rd` moves on within the buffer. -/
theorem move (h : Same c p) {n m : ℕ} (hn : n ≤ p.buf.length) {count : UInt64} (hcount : count = UInt64.ofNat m) :
    Same { c with rd := c.rd + n, resyncCount := count } { p with buf := p.buf.drop n, resyncCount := m } := by
  have havail := h.avail
  have hrd := h.rd
  refine ⟨?_, ?_, hcount, h.crcErrors⟩
  · show c.buf.drop (c.rd + n) = p.buf.drop n
    rw [← List.drop_drop, h.buf]
  · show c.rd + n ≤ c.buf.length
    omega

theorem resync (h : Same c p) : c.resync.1 = p.resync.1 ∧ Same c.resync.2 p.resync.2 := by
  have hfind : findMagic (c.buf.drop c.rd) (c.buf.length - c.rd) 1 = find MAGIC p.buf 1 := by
    rw [h.buf, h.avail, findMagic_eq]
  have hmagic : MAGIC.length = 4 := rfl
  have hcount : c.resyncCount + 1 = UInt64.ofNat (p.resyncCount + 1) := by
    rw [h.resyncs, UInt64.ofNat_add]
    rfl
  rw [FrameParser.resync, Mdfp.FrameParser.resync]
  dsimp only
  rw [hfind, h.avail]
  cases hf : find MAGIC p.buf 1 with
  | none =>
    refine ⟨rfl, ?_⟩
    have hkeep : (if MAGIC.length - 1 < p.buf.length then c.rd + (p.buf.length - (MAGIC.length - 1)) else c.rd) =
        c.rd + (p.buf.length - (MAGIC.length - 1)) := by
      split <;> omega
    dsimp only
    rw [hkeep]
    exact h.move (Nat.sub_le _ _) hcount
  | some k =>
    refine ⟨rfl, h.move ?_ hcount⟩
    have hlen := congrArg List.length (find_some hf).2.1
    rw [slice, List.length_take, List.length_drop] at hlen
    omega

end Same

/-- The two answer the same, and are in the same state once a frame is consumed. -/
structure Steps (c : Status × FrameParser) (p : Status × Mdfp.FrameParser) : Prop where
  status : c.1 = p.1
  rest : (∀ f, p.1 ≠ .ok f) → Same c.2 p.2
  frame : ∀ f, p.1 = .ok f → Same (c.2.consume f) p.2

namespace Same

variable {c : FrameParser} {p : Mdfp.FrameParser}

theorem steps_resync (h : Same c p) : Steps c.resync p.resync := by
  obtain ⟨hst, hsame⟩ := h.resync
  refine ⟨hst, fun _ => hsame, fun f hf => ?_⟩
  rw [Mdfp.FrameParser.resync] at hf
  split at hf <;> cases hf

theorem steps_wait (h : Same c p) : Steps (.needMore, c) (.needMore, p) := ⟨rfl, fun _ => h, fun f hf => by (cases hf)⟩

/-- A checksum read as a word is the number read. -/
theorem want_eq {b : Bytes} {n : ℕ} (hb : n + CRC_SIZE ≤ b.length) (crc : UInt32) :
    getBe32 (b.drop n) = crc ↔ getBe (slice b n (n + CRC_SIZE)) = crc.toNat := by
  have hlt : getBe (slice b n (n + CRC_SIZE)) < 2 ^ 32 := by
    have := getBe_lt (slice b n (n + CRC_SIZE))
    rwa [slice_length hb, Nat.add_sub_cancel_left] at this
  have hslice : (b.drop n).take 4 = slice b n (n + CRC_SIZE) := by rw [slice, Nat.add_sub_cancel_left, CRC_SIZE]
  rw [getBe32_eq, hslice, ← UInt32.toNat_inj, UInt32.toNat_ofNat', Nat.mod_eq_of_lt hlt]

/-- **One `try_one` of each.** -/
theorem tryOne (h : Same c p) : Steps c.tryOne p.tryOne := by
  have htake (n : ℕ) : p.buf.take n = slice p.buf 0 n := rfl
  unfold FrameParser.tryOne Mdfp.FrameParser.tryOne
  dsimp only
  rw [h.avail, h.buf, htake 4]
  by_cases hlen : p.buf.length < HEADER_SIZE
  · rw [if_pos hlen, if_pos hlen]
    exact h.steps_wait
  · rw [if_neg hlen, if_neg hlen]
    by_cases hmagic : slice p.buf 0 4 ≠ MAGIC
    · rw [if_pos hmagic, if_pos hmagic]
      exact h.steps_resync
    · have hheader := header_eq (Nat.not_lt.1 hlen)
      generalize hn : (getBe32 (p.buf.drop 16)).toNat = n at hheader
      rw [if_neg hmagic, if_neg hmagic, hheader]
      dsimp only
      by_cases hbad : p.buf.getD 4 0 ≠ VERSION ∨ MAX_PAYLOAD < n
      · rw [if_pos hbad, if_pos hbad]
        exact h.steps_resync
      · rw [if_neg hbad, if_neg hbad]
        by_cases htotal : p.buf.length < HEADER_SIZE + n + CRC_SIZE
        · rw [if_pos htotal, if_pos htotal]
          exact h.steps_wait
        · have hwant := want_eq (Nat.not_lt.1 htotal) (Gateway.crc32 (slice p.buf 0 (HEADER_SIZE + n)))
          rw [if_neg htotal, if_neg htotal, htake]
          by_cases hcrc : getBe (slice p.buf (HEADER_SIZE + n) (HEADER_SIZE + n + CRC_SIZE)) =
            (crc32 (slice p.buf 0 (HEADER_SIZE + n))).toNat
          · rw [if_neg (not_not.2 (hwant.2 (by rw [crc32_eq, hcrc]))), if_neg (not_not.2 hcrc)]
            have hpayload : (slice p.buf 0 (HEADER_SIZE + n)).drop HEADER_SIZE = (p.buf.drop HEADER_SIZE).take n := by
              rw [← htake, List.drop_take, Nat.add_sub_cancel_left]
            have hlength : ((p.buf.drop HEADER_SIZE).take n).length = n := by
              rw [List.length_take, List.length_drop]
              omega
            rw [hpayload]
            refine ⟨rfl, fun hne => absurd rfl (hne _), fun f hf => ?_⟩
            cases hf
            rw [FrameParser.consume]
            dsimp only
            rw [hlength]
            exact h.move (Nat.not_lt.1 htotal) h.resyncs
          · have hcrc' : ¬getBe32 (p.buf.drop (HEADER_SIZE + n)) = Gateway.crc32 (slice p.buf 0 (HEADER_SIZE + n)) := by
              rw [hwant, crc32_eq]
              exact hcrc
            rw [if_pos hcrc', if_pos hcrc]
            refine steps_resync ⟨h.buf, h.rd, h.resyncs, ?_⟩
            show c.crcErrorCount + 1 = UInt64.ofNat (p.crcErrorCount + 1)
            rw [h.crcErrors, UInt64.ofNat_add]
            rfl

/-- Dropping what is behind `rd` changes nothing. -/
theorem compact (h : Same c p) : Same c.compact p := by
  unfold FrameParser.compact
  split
  · exact h
  · split
    · rename_i hend
      refine ⟨?_, Nat.zero_le _, h.resyncs, h.crcErrors⟩
      rw [← h.buf, hend, List.drop_length]
      rfl
    · split
      · exact ⟨h.buf, Nat.zero_le _, h.resyncs, h.crcErrors⟩
      · exact h

end Same

/-! ## Whole calls -/

namespace FrameParser

theorem tryOne_shrinks {c c' : FrameParser} {st : Status} (h : c.tryOne = (st, c')) :
    (st = .retry → c'.buf.length - c'.rd < c.buf.length - c.rd) ∧
    ∀ f, st = .ok f → (c'.consume f).buf.length - (c'.consume f).rd < c.buf.length - c.rd := by
  by_cases hrd : c.rd ≤ c.buf.length
  · have hsame : Same c ⟨c.buf.drop c.rd, c.resyncCount.toNat, c.crcErrorCount.toNat⟩ :=
      ⟨rfl, hrd, UInt64.ofNat_toNat.symm, UInt64.ofNat_toNat.symm⟩
    obtain ⟨_, hreads⟩ := (⟨c.buf.drop c.rd, c.resyncCount.toNat, c.crcErrorCount.toNat⟩ :
      Mdfp.FrameParser).tryOne_reads
    have hshrinks := hreads.shrinks
    have hsteps := hsame.tryOne
    rw [h] at hsteps
    refine ⟨fun hst => ?_, fun f hst => ?_⟩
    · have hst' := hsteps.status.symm.trans hst
      rw [(hsteps.rest fun f hf => by rw [hst'] at hf; cases hf).avail, hsame.avail]
      exact hshrinks (by rw [hst']; exact Status.noConfusion)
    · have hst' := hsteps.status.symm.trans hst
      rw [(hsteps.frame f hst').avail, hsame.avail]
      exact hshrinks (by rw [hst']; exact Status.noConfusion)
  · have hwait : c.tryOne = (.needMore, c) := by
      rw [tryOne]
      exact if_pos (by rw [Nat.sub_eq_zero_of_le (Nat.le_of_not_le hrd)]; decide)
    rw [hwait] at h
    cases h
    exact ⟨fun hst => by (cases hst), fun f hst => by (cases hst)⟩

/-- The `for (;;)` of `feed`, and `compact` on every way out. -/
def loop (onFrame : Frame → Bool) (c : FrameParser) : List Frame × FrameParser :=
  match _h : c.tryOne with
  | (.needMore, c') => ([], c'.compact)
  | (.retry, c') => loop onFrame c'
  | (.ok frame, c') => if onFrame frame then ([frame], (c'.consume frame).compact) else
    (frame :: (loop onFrame (c'.consume frame)).1, (loop onFrame (c'.consume frame)).2)
termination_by c.buf.length - c.rd
decreasing_by
  · exact (tryOne_shrinks ‹_›).1 rfl
  · exact (tryOne_shrinks ‹_›).2 frame rfl

def feed (onFrame : Frame → Bool) (c : FrameParser) (data : Bytes) : List Frame × FrameParser :=
  loop onFrame { c with buf := c.buf ++ data }

end FrameParser

/-! ## The same frames, the same counts -/

/-- One chunk after the other, each with its callback: what each call delivered, and the parser. -/
def feedAll : List (Bytes × (Frame → Bool)) → FrameParser → List (List Frame) × FrameParser
  | [], c => ([], c)
  | (data, onFrame) :: calls, c =>
    let r := c.feed onFrame data
    (r.1 :: (feedAll calls r.2).1, (feedAll calls r.2).2)

end Cpp

/-- `for frame in parser.feed(chunk): on_frame(frame)`, one chunk after the other. -/
def FrameParser.feedAll : List (Bytes × (Frame → Bool)) → FrameParser → List (List Frame) × FrameParser
  | [], p => ([], p)
  | (chunk, onFrame) :: calls, p =>
    let r := each onFrame { p with buf := p.buf ++ chunk }
    (r.1 :: (feedAll calls r.2).1, (feedAll calls r.2).2)

/-- The loop over a generator, up to its next frame. -/
theorem FrameParser.each_advance (onFrame : Frame → Bool) (p : FrameParser) :
    (p.advance.1 = none ∧ p.each onFrame = ([], p.advance.2)) ∨
    ∃ f, p.advance.1 = some f ∧ p.each onFrame = if onFrame f then ([f], p.advance.2) else
      (f :: (p.advance.2.each onFrame).1, (p.advance.2.each onFrame).2) := by
  rw [each]
  split
  · rename_i hadv
    exact .inl ⟨by rw [hadv], by rw [hadv]⟩
  · rename_i hadv
    exact .inr ⟨_, by rw [hadv], by rw [hadv]⟩

/-- The same, one `_try_one` at a time. -/
theorem FrameParser.each_cases (onFrame : Frame → Bool) (p : FrameParser) :
    (p.tryOne.1 = .needMore ∧ p.each onFrame = ([], p.tryOne.2)) ∨
    (p.tryOne.1 = .retry ∧ p.each onFrame = p.tryOne.2.each onFrame) ∨
    ∃ f, p.tryOne.1 = .ok f ∧ p.each onFrame = if onFrame f then ([f], p.tryOne.2) else
      (f :: (p.tryOne.2.each onFrame).1, (p.tryOne.2.each onFrame).2) := by
  rcases p.advance_cases with ⟨hst, hadv⟩ | ⟨hst, hadv⟩ | ⟨f, hst, hadv⟩
  · refine .inl ⟨hst, ?_⟩
    rcases p.each_advance onFrame with ⟨-, heach⟩ | ⟨f, hf, -⟩
    · rw [heach, hadv]
    · rw [hadv] at hf
      cases hf
  · refine .inr (.inl ⟨hst, ?_⟩)
    rcases p.each_advance onFrame with ⟨hnone, heach⟩ | ⟨f, hf, heach⟩ <;>
      rcases p.tryOne.2.each_advance onFrame with ⟨hnone', heach'⟩ | ⟨f', hf', heach'⟩
    · rw [heach, heach', hadv]
    · rw [hadv, hf'] at hnone
      cases hnone
    · rw [hadv, hnone'] at hf
      cases hf
    · rw [hadv, hf'] at hf
      cases hf
      rw [heach, heach', hadv]
  · refine .inr (.inr ⟨f, hst, ?_⟩)
    rcases p.each_advance onFrame with ⟨hnone, -⟩ | ⟨f', hf, heach⟩
    · rw [hadv] at hnone
      cases hnone
    · rw [hadv] at hf
      cases hf
      rw [heach, hadv]

namespace Cpp

theorem loop_cases (onFrame : Frame → Bool) (c : FrameParser) :
    (c.tryOne.1 = .needMore ∧ c.loop onFrame = ([], c.tryOne.2.compact)) ∨
    (c.tryOne.1 = .retry ∧ c.loop onFrame = c.tryOne.2.loop onFrame) ∨
    ∃ f, c.tryOne.1 = .ok f ∧ c.loop onFrame = if onFrame f then ([f], (c.tryOne.2.consume f).compact) else
      (f :: ((c.tryOne.2.consume f).loop onFrame).1, ((c.tryOne.2.consume f).loop onFrame).2) := by
  rw [FrameParser.loop]
  split
  · rename_i hst
    exact .inl ⟨by rw [hst], by rw [hst]⟩
  · rename_i hst
    exact .inr (.inl ⟨by rw [hst], by rw [hst]⟩)
  · rename_i hst
    exact .inr (.inr ⟨_, by rw [hst], by rw [hst]⟩)

/-- **One call of each**: the same frames delivered, and the same state after. -/
theorem loop_same (onFrame : Frame → Bool) {c : FrameParser} {p : Mdfp.FrameParser} (h : Same c p) :
    (c.loop onFrame).1 = (p.each onFrame).1 ∧ Same (c.loop onFrame).2 (p.each onFrame).2 := by
  induction hlen : p.buf.length using Nat.strongRecOn generalizing c p with
  | ind n ih =>
    have hsteps := h.tryOne
    obtain ⟨_, hreads⟩ := p.tryOne_reads
    have hshrinks := hreads.shrinks
    rcases loop_cases onFrame c with ⟨hst, hloop⟩ | ⟨hst, hloop⟩ | ⟨f, hst, hloop⟩ <;> rw [hsteps.status] at hst <;>
      rcases p.each_cases onFrame with ⟨hst', heach⟩ | ⟨hst', heach⟩ | ⟨f', hst', heach⟩ <;>
        rw [hst] at hst' <;> cases hst'
    · rw [hloop, heach]
      exact ⟨rfl, (hsteps.rest fun f hf => by rw [hst] at hf; cases hf).compact⟩
    · rw [hloop, heach]
      exact ih _ (hlen ▸ hshrinks (by rw [hst]; exact Status.noConfusion))
        (hsteps.rest fun f hf => by rw [hst] at hf; cases hf) rfl
    · rw [hloop, heach]
      by_cases hthrow : onFrame f
      · rw [if_pos hthrow, if_pos hthrow]
        exact ⟨rfl, (hsteps.frame f hst).compact⟩
      · rw [if_neg hthrow, if_neg hthrow]
        obtain ⟨hframes, hsame⟩ := ih _ (hlen ▸ hshrinks (by rw [hst]; exact Status.noConfusion)) (hsteps.frame f hst) rfl
        exact ⟨congrArg (f :: ·) hframes, hsame⟩

theorem Same.append {c : FrameParser} {p : Mdfp.FrameParser} (h : Same c p) (data : Bytes) :
    Same { c with buf := c.buf ++ data } { p with buf := p.buf ++ data } := by
  refine ⟨?_, ?_, h.resyncs, h.crcErrors⟩
  · show (c.buf ++ data).drop c.rd = p.buf ++ data
    rw [List.drop_append_of_le_length h.rd, h.buf]
  · show c.rd ≤ (c.buf ++ data).length
    rw [List.length_append]
    exact Nat.le_trans h.rd (Nat.le_add_right _ _)

theorem feedAll_same (calls : List (Bytes × (Frame → Bool))) {c : FrameParser} {p : Mdfp.FrameParser} (h : Same c p) :
    (feedAll calls c).1 = (p.feedAll calls).1 ∧ Same (feedAll calls c).2 (p.feedAll calls).2 := by
  induction calls generalizing c p with
  | nil => exact ⟨rfl, h⟩
  | cons call calls ih =>
    obtain ⟨data, onFrame⟩ := call
    obtain ⟨hframes, hsame⟩ := loop_same onFrame (h.append data)
    obtain ⟨hall, hlast⟩ := ih hsame
    exact ⟨congr (congrArg List.cons hframes) hall, hlast⟩

end Cpp

/-! ## A place given up is a byte gone -/

namespace FrameParser

/-- Between two states: what was given up is at most what was read, and a checksum error gives up its place. -/
structure Counts (p p' : FrameParser) : Prop where
  resyncs : p'.resyncCount + p'.buf.length ≤ p.resyncCount + p.buf.length
  crcErrors : p'.crcErrorCount + p.resyncCount ≤ p'.resyncCount + p.crcErrorCount

theorem Counts.refl (p : FrameParser) : Counts p p := ⟨Nat.le_refl _, by omega⟩

theorem Counts.trans {p p' p'' : FrameParser} (h : Counts p p') (h' : Counts p' p'') : Counts p p'' := by
  have := h.crcErrors
  have := h'.crcErrors
  exact ⟨Nat.le_trans h'.resyncs h.resyncs, by omega⟩

theorem tryOne_counts (p : FrameParser) : Counts p p.tryOne.2 := by
  have hresync (n : ℕ) (hn : n ≤ p.crcErrorCount + 1) (hlen : MAGIC.length ≤ p.buf.length) :
      Counts p (resync { p with crcErrorCount := n }).2 := by
    obtain ⟨k, hk, hle, -, hres, -⟩ := resync_cases { p with crcErrorCount := n } hlen
    rw [hres]
    refine ⟨?_, ?_⟩
    · show p.resyncCount + 1 + (p.buf.drop k).length ≤ p.resyncCount + p.buf.length
      rw [List.length_drop]
      have : k ≤ p.buf.length := hle
      omega
    · show n + p.resyncCount ≤ p.resyncCount + 1 + p.crcErrorCount
      omega
  have h20 : HEADER_SIZE = 20 := rfl
  have h4 : MAGIC.length = 4 := rfl
  unfold tryOne
  split
  · exact .refl p
  · have hlen : MAGIC.length ≤ p.buf.length := by omega
    split
    · exact hresync p.crcErrorCount (Nat.le_succ _) hlen
    · dsimp only
      split
      · exact hresync p.crcErrorCount (Nat.le_succ _) hlen
      · split
        · exact .refl p
        · split
          · exact hresync (p.crcErrorCount + 1) (Nat.le_refl _) hlen
          · refine ⟨?_, ?_⟩
            · show p.resyncCount + (p.buf.drop _).length ≤ _
              rw [List.length_drop]
              omega
            · show p.crcErrorCount + p.resyncCount ≤ p.resyncCount + p.crcErrorCount
              omega

theorem each_counts (onFrame : Frame → Bool) (p : FrameParser) : Counts p (p.each onFrame).2 := by
  induction hlen : p.buf.length using Nat.strongRecOn generalizing p with
  | ind n ih =>
    obtain ⟨_, hreads⟩ := p.tryOne_reads
    have hshrinks := hreads.shrinks
    have hstep := p.tryOne_counts
    rcases p.each_cases onFrame with ⟨hst, heach⟩ | ⟨hst, heach⟩ | ⟨f, hst, heach⟩ <;> rw [heach]
    · exact hstep
    · exact hstep.trans (ih _ (hlen ▸ hshrinks (by rw [hst]; exact Status.noConfusion)) _ rfl)
    · split
      · exact hstep
      · exact hstep.trans (ih _ (hlen ▸ hshrinks (by rw [hst]; exact Status.noConfusion)) _ rfl)

theorem feedAll_counts (calls : List (Bytes × (Frame → Bool))) (p : FrameParser) :
    (p.feedAll calls).2.resyncCount ≤ p.resyncCount + p.buf.length + (calls.map Prod.fst).flatten.length ∧
    (p.feedAll calls).2.crcErrorCount + p.resyncCount ≤ (p.feedAll calls).2.resyncCount + p.crcErrorCount := by
  induction calls generalizing p with
  | nil => exact ⟨by simp only [feedAll, List.map_nil, List.flatten_nil, List.length_nil]; omega, by simp only [feedAll]; omega⟩
  | cons call calls ih =>
    obtain ⟨chunk, onFrame⟩ := call
    obtain ⟨hresyncs, herrors⟩ := each_counts onFrame { p with buf := p.buf ++ chunk }
    obtain ⟨hresyncs', herrors'⟩ := ih (each onFrame { p with buf := p.buf ++ chunk }).2
    simp only [feedAll, List.map_cons, List.flatten_cons, List.length_append] at hresyncs ⊢
    exact ⟨by omega, by dsimp only at herrors; omega⟩

end FrameParser

namespace Cpp

/-- **The two parsers are one**: chunk by chunk, whichever callback throws, they deliver the same frames and count the
same. The C++ counters are 64 bits wide, so the counts are equal as numbers up to 2^64 bytes. -/
theorem parsers_equivalent (calls : List (Bytes × (Frame → Bool))) :
    (feedAll calls .init).1 = (Mdfp.FrameParser.init.feedAll calls).1 ∧
    (feedAll calls .init).2.crcErrorCount = UInt64.ofNat (Mdfp.FrameParser.init.feedAll calls).2.crcErrorCount ∧
    (feedAll calls .init).2.resyncCount = UInt64.ofNat (Mdfp.FrameParser.init.feedAll calls).2.resyncCount ∧
    ((calls.map Prod.fst).flatten.length < 2 ^ 64 →
      (feedAll calls .init).2.crcErrorCount.toNat = (Mdfp.FrameParser.init.feedAll calls).2.crcErrorCount ∧
      (feedAll calls .init).2.resyncCount.toNat = (Mdfp.FrameParser.init.feedAll calls).2.resyncCount) := by
  have hinit : Same .init Mdfp.FrameParser.init := ⟨rfl, Nat.le_refl _, rfl, rfl⟩
  obtain ⟨hframes, hsame⟩ := feedAll_same calls hinit
  obtain ⟨hresyncs, herrors⟩ := Mdfp.FrameParser.init.feedAll_counts calls
  have hzero : Mdfp.FrameParser.init.resyncCount = 0 ∧ Mdfp.FrameParser.init.crcErrorCount = 0 ∧
      Mdfp.FrameParser.init.buf.length = 0 :=
    ⟨rfl, rfl, rfl⟩
  refine ⟨hframes, hsame.crcErrors, hsame.resyncs, fun hlen => ⟨?_, ?_⟩⟩
  · rw [hsame.crcErrors, UInt64.toNat_ofNat']
    exact Nat.mod_eq_of_lt (by omega)
  · rw [hsame.resyncs, UInt64.toNat_ofNat']
    exact Nat.mod_eq_of_lt (by omega)

/-- Bytes that are no frame, the callback never throwing. -/
theorem parsers_equivalent_garbage :
    (feedAll [([77, 68, 70], fun _ => false), ([49, 2, 0, 0, 0], fun _ => false)] .init).2.resyncCount.toNat =
      (Mdfp.FrameParser.init.feedAll [([77, 68, 70], fun _ => false),
        ([49, 2, 0, 0, 0], fun _ => false)]).2.resyncCount :=
  ((parsers_equivalent [([77, 68, 70], fun _ => false), ([49, 2, 0, 0, 0], fun _ => false)]).2.2.2 (by decide)).2

end Cpp

end Mdfp

import MarketFeed.Protocol.Parser
/-!
# However the bytes are cut (src/mdfeed/protocol.py:85-149)

`feed` is a generator. Its chunk goes into the buffer at the first `next`, a later `next` runs the loop on
from the `yield`, and several of them may be under way over one buffer (`Session`).

* `Session.finish_spec`: what comes out is what is read of the bytes that went in, place by place.
* `encodeAll_unsynced`: over frames alone no place is ever given up.
* `contained`: past what is no frame, the next frames come out whole.
-/

namespace Mdfp

open Gateway (Bytes putBe_length)

namespace FrameParser

/-- `for frame in feed(b"")`: all that is left to come out. -/
def drain (p : FrameParser) : List Frame × FrameParser :=
  match _h : p.advance with
  | (none, p') => ([], p')
  | (some frame, p') => (frame :: (drain p').1, (drain p').2)
termination_by p.buf.length
decreasing_by all_goals
  have hlt := p.advance_spec.2.2
  rw [‹p.advance = _›] at hlt
  exact hlt (Option.some_ne_none frame)

theorem drain_cases (p : FrameParser) : (p.advance.1 = none ∧ p.drain = ([], p.advance.2)) ∨
    ∃ f, p.advance.1 = some f ∧ p.drain = (f :: p.advance.2.drain.1, p.advance.2.drain.2) := by
  rw [drain]
  split
  · rename_i hadv
    exact .inl ⟨by rw [hadv], by rw [hadv]⟩
  · rename_i hadv
    exact .inr ⟨_, by rw [hadv], by rw [hadv]⟩

theorem drain_spec (p : FrameParser) : Continues p p.drain.2 p.drain.1 ∧ Idle p.drain.2 := by
  induction hlen : p.buf.length using Nat.strongRecOn generalizing p with
  | ind n ih =>
    obtain ⟨hcont, hidle, hshrink⟩ := p.advance_spec
    rcases p.drain_cases with ⟨hadv, hdrain⟩ | ⟨f, hadv, hdrain⟩
    · rw [hadv] at hcont
      rw [hdrain]
      exact ⟨hcont, hidle hadv⟩
    · have hlt := hshrink (by rw [hadv]; exact Option.some_ne_none f)
      obtain ⟨hcont', hidle'⟩ := ih _ (hlen ▸ hlt) p.advance.2 rfl
      rw [hadv] at hcont
      rw [hdrain]
      exact ⟨hcont.trans hcont', hidle'⟩

/-- What comes out is what is read of the buffer. -/
theorem drain_frames (p : FrameParser) : p.drain.1 = framesOf p.buf := by
  obtain ⟨hcont, hidle⟩ := p.drain_spec
  have hframes := hcont.frames []
  simp only [List.append_nil] at hframes
  rw [hframes]
  simp [framesOf, hidle.quiet, Mdfp.frames]

theorem drain_wait {p p' : FrameParser} (h : p.tryOne = (.needMore, p')) : p.drain = ([], p') := by
  rcases p.advance_cases with ⟨-, hadv⟩ | ⟨hst, -⟩ | ⟨f, hst, -⟩
  · rcases p.drain_cases with ⟨-, hdrain⟩ | ⟨f, hf, -⟩
    · rw [hdrain, hadv, h]
    · rw [hadv] at hf
      cases hf
  · rw [h] at hst
    cases hst
  · rw [h] at hst
    cases hst

end FrameParser

/-! ## Generators over one parser -/

inductive Gen where
  | created (chunk : Bytes)
  | suspended
  | closed
  deriving DecidableEq

/-- `out` is what the generators yielded, in order, and `taken` the bytes that went into the buffer. -/
structure Session where
  parser : FrameParser
  gens : List Gen
  out : List Frame
  taken : Bytes
  deriving DecidableEq

inductive Op where
  | feed (chunk : Bytes)
  | next (i : ℕ)
  | close (i : ℕ)
  deriving DecidableEq

namespace Session

def init : Session := ⟨.init, [], [], []⟩

/-- A generator runs to its next `yield`, or to its end. -/
def pull (s : Session) (i : ℕ) (chunk : Bytes) : Session :=
  let r := FrameParser.advance { s.parser with buf := s.parser.buf ++ chunk }
  { parser := r.2
    gens := s.gens.set i (if r.1.isSome then .suspended else .closed)
    out := s.out ++ r.1.toList
    taken := s.taken ++ chunk }

def step (s : Session) : Op → Session
  | .feed chunk => { s with gens := s.gens ++ [.created chunk] }
  | .next i =>
    match s.gens[i]? with
    | some (.created chunk) => s.pull i chunk
    | some .suspended => s.pull i []
    | some .closed => s
    | none => s
  | .close i => { s with gens := s.gens.set i .closed }

def run (ops : List Op) : Session := ops.foldl step init

/-- All is drained in the end. -/
def finish (s : Session) : Session := { s with parser := s.parser.drain.2, out := s.out ++ s.parser.drain.1 }

/-- Whatever follows, the session has read the stream as one that had it all from the start. -/
structure Faithful (s : Session) : Prop where
  frames : ∀ c, s.out ++ framesOf (s.parser.buf ++ c) = framesOf (s.taken ++ c)
  errors : ∀ c, s.parser.crcErrorCount + errorsOf (s.parser.buf ++ c) = errorsOf (s.taken ++ c)

theorem Faithful.init : Faithful init := ⟨fun _ => rfl, fun _ => Nat.zero_add _⟩

theorem Faithful.pull {s : Session} (h : Faithful s) (i : ℕ) (chunk : Bytes) : Faithful (s.pull i chunk) := by
  have hcont := (FrameParser.advance_spec { s.parser with buf := s.parser.buf ++ chunk }).1
  refine ⟨fun c => ?_, fun c => ?_⟩
  · have hstep := hcont.frames c
    have hbefore := h.frames (chunk ++ c)
    simp only [List.append_assoc] at hstep
    simp only [Session.pull, List.append_assoc]
    rw [← hstep, hbefore]
  · have hstep := hcont.errors c
    have hbefore := h.errors (chunk ++ c)
    simp only [List.append_assoc] at hstep
    simp only [Session.pull, List.append_assoc]
    rw [← hstep, hbefore]

/-- An op either pulls or leaves the buffer and the stream alone. -/
theorem step_cases (s : Session) (op : Op) : (∃ i chunk, s.step op = s.pull i chunk) ∨
    ∃ gens, s.step op = { s with gens := gens } := by
  cases op with
  | feed chunk => exact .inr ⟨_, rfl⟩
  | close i => exact .inr ⟨_, rfl⟩
  | next i =>
    simp only [step]
    split
    · exact .inl ⟨_, _, rfl⟩
    · exact .inl ⟨_, _, rfl⟩
    · exact .inr ⟨_, rfl⟩
    · exact .inr ⟨_, rfl⟩

/-- An invariant of sessions, from the parts that pulls can change. -/
theorem run_keeps {I : Session → Prop} (hinit : I init) (hpull : ∀ s i chunk, I s → I (s.pull i chunk))
    (hgens : ∀ s gens, I s → I { s with gens := gens }) (ops : List Op) : I (run ops) := by
  suffices h : ∀ s, I s → I (ops.foldl step s) from h init hinit
  induction ops with
  | nil => exact fun _ hs => hs
  | cons op ops ih =>
    intro s hs
    apply ih
    rcases s.step_cases op with ⟨i, chunk, heq⟩ | ⟨gens, heq⟩
    · rw [heq]
      exact hpull s i chunk hs
    · rw [heq]
      exact hgens s gens hs

theorem run_faithful (ops : List Op) : Faithful (run ops) :=
  run_keeps .init (fun _ i chunk h => h.pull i chunk) (fun _ _ h => ⟨h.frames, h.errors⟩) ops

/-- **What has come out in the end is what the bytes hold**, place by place, and the buffer is short. -/
theorem finish_spec (ops : List Op) : (run ops).finish.out = framesOf (run ops).taken ∧
    (run ops).finish.parser.crcErrorCount = errorsOf (run ops).taken ∧
    (run ops).finish.parser.buf.length < MAX_FRAME := by
  have hfaithful := run_faithful ops
  obtain ⟨hcont, hidle⟩ := (run ops).parser.drain_spec
  have hnone : framesOf (run ops).parser.drain.2.buf = [] ∧ errorsOf (run ops).parser.drain.2.buf = 0 := by
    rw [framesOf, errorsOf, hidle.quiet]
    exact ⟨rfl, rfl⟩
  have hframes := hfaithful.frames []
  have herrors := hfaithful.errors []
  have hf := hcont.frames []
  have he := hcont.errors []
  simp only [List.append_nil, hnone.1, hnone.2, Nat.add_zero] at hframes herrors hf he
  exact ⟨by rw [← hframes, hf]; rfl, by rw [← herrors, he]; rfl, hidle.short⟩

end Session

/-! ## Frames as they are written -/

/-- The frames encoded one after the other. -/
def encodeAll (fs : List Frame) : Except ProtocolError Bytes :=
  (fs.mapM fun f => encode f.msgType f.seq f.payload f.flags).map List.flatten

/-- Frames within the limit are encoded, each to its bytes. -/
theorem encodeAll_ok {fs : List Frame} (h : ∀ f ∈ fs, f.payload.length ≤ MAX_PAYLOAD) :
    encodeAll fs = .ok (fs.map Frame.bytes).flatten := by
  have hmap : (fs.mapM fun f => encode f.msgType f.seq f.payload f.flags) = .ok (fs.map Frame.bytes) := by
    induction fs with
    | nil => rfl
    | cons f fs ih =>
      rw [List.mapM_cons, Frame.encode_ok (h f List.mem_cons_self), ih fun f' hf' => h f' (List.mem_cons_of_mem _ hf')]
      rfl
  rw [encodeAll, hmap]
  rfl

/-- What is encoded is within the limit. -/
theorem encodeAll_some {fs : List Frame} {b : Bytes} (h : encodeAll fs = .ok b) :
    (∀ f ∈ fs, f.payload.length ≤ MAX_PAYLOAD) ∧ b = (fs.map Frame.bytes).flatten := by
  have hle : ∀ f ∈ fs, f.payload.length ≤ MAX_PAYLOAD := by
    cases hbs : (fs.mapM fun f => encode f.msgType f.seq f.payload f.flags) with
    | error e =>
      rw [encodeAll, hbs] at h
      cases h
    | ok bs =>
      clear h
      induction fs generalizing bs with
      | nil => exact fun _ hf => by (cases hf)
      | cons f fs ih =>
        rw [List.mapM_cons] at hbs
        by_cases hf : f.payload.length ≤ MAX_PAYLOAD
        · cases htail : (fs.mapM fun f => encode f.msgType f.seq f.payload f.flags) with
          | error e =>
            rw [Frame.encode_ok hf, htail] at hbs
            cases hbs
          | ok bs' => exact List.forall_mem_cons.2 ⟨hf, ih bs' htail⟩
        · rw [encode, if_pos (Nat.not_le.1 hf)] at hbs
          cases hbs
  refine ⟨hle, ?_⟩
  rw [encodeAll_ok hle] at h
  cases h
  rfl

@[simp] theorem framesOf_nil : framesOf [] = [] := by
  have hwait : reader.look [] = none := rfl
  simp [framesOf, Scan.read_wait reader hwait, frames]

theorem bytes_append (f : Frame) (c : Bytes) :
    f.bytes ++ c = f.body ++ (Gateway.putBe 4 (crc32 f.body).toNat ++ c) := by
  rw [Frame.bytes, List.append_assoc]

theorem header_bytes {f : Frame} (h : f.payload.length ≤ MAX_PAYLOAD) (c : Bytes) :
    header (f.bytes ++ c) = ⟨VERSION, f.msgType, f.flags, f.seq, f.payload.length⟩ := by
  rw [bytes_append, Frame.header_body h]

theorem magic_bytes (f : Frame) (c : Bytes) : slice (f.bytes ++ c) 0 4 = MAGIC := by
  rw [bytes_append]
  exact f.magic_body _

/-- A frame's bytes are taken for that frame. -/
theorem look_bytes {f : Frame} (h : f.payload.length ≤ MAX_PAYLOAD) (c : Bytes) :
    look (f.bytes ++ c) = some (some (.frame f), f.bytes.length) := by
  have hlen : (f.bytes ++ c).length = HEADER_SIZE + f.payload.length + CRC_SIZE + c.length := by
    rw [List.length_append, Frame.bytes_length]
  have h4 : MAGIC.length = 4 := rfl
  have h20 : HEADER_SIZE = 20 := rfl
  rw [look, if_neg (by omega), if_neg (not_not.2 (magic_bytes f c)), if_neg (by omega), header_bytes h c]
  dsimp only
  rw [if_neg, if_neg (by omega), if_neg, frameAt, header_bytes h c, f.slice_body, f.drop_body, f.bytes_length]
  · rw [f.slice_crc, f.slice_body]
    exact not_not.2 rfl
  · rintro (hver | hlong)
    · exact hver rfl
    · exact Nat.not_lt.2 h hlong

theorem framesOf_bytes {f : Frame} (h : f.payload.length ≤ MAX_PAYLOAD) (c : Bytes) :
    framesOf (f.bytes ++ c) = f :: framesOf c ∧ errorsOf (f.bytes ++ c) = errorsOf c := by
  have hread := Scan.read_take reader ((reader_look _).trans (look_bytes h c))
  rw [List.drop_left] at hread
  rw [framesOf, errorsOf, hread, frames_append, errors_append]
  exact ⟨rfl, Nat.zero_add _⟩

theorem framesOf_all {fs : List Frame} (h : ∀ f ∈ fs, f.payload.length ≤ MAX_PAYLOAD) (c : Bytes) :
    framesOf ((fs.map Frame.bytes).flatten ++ c) = fs ++ framesOf c ∧
      errorsOf ((fs.map Frame.bytes).flatten ++ c) = errorsOf c := by
  induction fs with
  | nil => exact ⟨rfl, rfl⟩
  | cons f fs ih =>
    obtain ⟨hframes, herrors⟩ := ih fun f' hf' => h f' (List.mem_cons_of_mem _ hf')
    obtain ⟨hframe, herror⟩ := framesOf_bytes (h f List.mem_cons_self) ((fs.map Frame.bytes).flatten ++ c)
    rw [List.map_cons, List.flatten_cons, List.append_assoc, hframe, herror, hframes]
    exact ⟨rfl, herrors⟩

/-! ## No frame in the way -/

/-- Every check of the parser passes at the front of `b`. -/
def Passes (b : Bytes) : Prop :=
  slice b 0 4 = MAGIC ∧ (header b).ver = VERSION ∧ (header b).length ≤ MAX_PAYLOAD ∧
    HEADER_SIZE + (header b).length + CRC_SIZE ≤ b.length ∧
    getBe (slice b (HEADER_SIZE + (header b).length) (HEADER_SIZE + (header b).length + CRC_SIZE)) =
      (crc32 (slice b 0 (HEADER_SIZE + (header b).length))).toNat

instance (b : Bytes) : Decidable (Passes b) := inferInstanceAs (Decidable (_ ∧ _))

/-- Where the checks do not pass, a place is given up as soon as a frame's worth has arrived. -/
theorem look_fails {b : Bytes} (hlen : MAX_FRAME ≤ b.length) (h : ¬Passes b) : ∃ o, look b = some (o, 1) ∧
    frames o.toList = [] := by
  have hmax : MAX_FRAME = HEADER_SIZE + MAX_PAYLOAD + CRC_SIZE := rfl
  have h4 : MAGIC.length = 4 := rfl
  have h20 : HEADER_SIZE = 20 := rfl
  unfold look
  rw [if_neg (by omega)]
  split
  · exact ⟨none, rfl, rfl⟩
  · rename_i hm
    rw [if_neg (by omega)]
    split
    · exact ⟨none, rfl, rfl⟩
    · rename_i hbad
      obtain ⟨hver, hlong⟩ := not_or.1 hbad
      rw [if_neg (by omega)]
      split
      · exact ⟨some .crcError, rfl, rfl⟩
      · rename_i hcrc
        exact absurd ⟨not_not.1 hm, not_not.1 hver, Nat.not_lt.1 hlong, by omega, not_not.1 hcrc⟩ h

/-- Garbage is gone through place by place. -/
theorem framesOf_garbage (g c : Bytes) (hc : MAX_FRAME ≤ c.length) (h : ∀ i < g.length, ¬Passes ((g ++ c).drop i)) :
    framesOf (g ++ c) = framesOf c := by
  induction g with
  | nil => rfl
  | cons x g ih =>
    obtain ⟨o, hlook, hnone⟩ := look_fails (by rw [List.drop_zero, List.length_append]; omega)
      (h 0 (Nat.zero_lt_succ _))
    have hread : reader.read (x :: g ++ c) = (o.toList ++ (reader.read (g ++ c)).1, (reader.read (g ++ c)).2) :=
      Scan.read_take reader hlook
    rw [framesOf, hread, frames_append, hnone]
    exact ih fun i hi => h (i + 1) (Nat.succ_lt_succ hi)

/-! ## No place is given up over frames -/

/-- What has arrived of some frames and what is still to come. -/
def Ahead (buf rest : Bytes) : Prop := ∃ left : List Frame, (∀ f ∈ left, f.payload.length ≤ MAX_PAYLOAD) ∧
    buf ++ rest = (left.map Frame.bytes).flatten

/-- At the start of a frame the parser waits for it or takes it. -/
theorem tryOne_ahead {p : FrameParser} {rest : Bytes} (h : Ahead p.buf rest) :
    p.tryOne = (.needMore, p) ∨ ∃ f n, p.tryOne = (.ok f, { p with buf := p.buf.drop n }) ∧
      Ahead (p.buf.drop n) rest := by
  obtain ⟨left, hleft, hbuf⟩ := h
  have h20 : HEADER_SIZE = 20 := rfl
  by_cases hlen : p.buf.length < HEADER_SIZE
  · exact .inl (by rw [FrameParser.tryOne, if_pos hlen])
  · cases left with
    | nil =>
      have hnil := List.length_eq_zero_iff.2 (List.append_eq_nil_iff.1 hbuf).1
      omega
    | cons f left =>
      have hf := hleft f List.mem_cons_self
      rw [List.map_cons, List.flatten_cons] at hbuf
      have hmagic : slice p.buf 0 4 = MAGIC := by
        rw [← slice_append (by omega) 0 rest, hbuf]
        exact magic_bytes f _
      have hheader : header p.buf = ⟨VERSION, f.msgType, f.flags, f.seq, f.payload.length⟩ := by
        rw [← header_append (Nat.not_lt.1 hlen) rest, hbuf]
        exact header_bytes hf _
      have hgood : ¬(VERSION ≠ VERSION ∨ MAX_PAYLOAD < f.payload.length) := not_or.2 ⟨not_not.2 rfl, Nat.not_lt.2 hf⟩
      by_cases htotal : p.buf.length < HEADER_SIZE + f.payload.length + CRC_SIZE
      · refine .inl ?_
        rw [FrameParser.tryOne, if_neg hlen, if_neg (not_not.2 hmagic), hheader]
        dsimp only
        rw [if_neg hgood, if_pos htotal]
      · have hcrc := f.slice_crc (left.map Frame.bytes).flatten
        have hbody := f.slice_body (left.map Frame.bytes).flatten
        rw [← hbuf, slice_append (Nat.not_lt.1 htotal)] at hcrc
        rw [← hbuf, slice_append (by omega)] at hbody
        refine .inr ⟨f, HEADER_SIZE + f.payload.length + CRC_SIZE, ?_, left,
          fun f' hf' => hleft f' (List.mem_cons_of_mem _ hf'), ?_⟩
        · rw [FrameParser.tryOne, if_neg hlen, if_neg (not_not.2 hmagic), hheader]
          dsimp only
          rw [if_neg hgood, if_neg htotal, hcrc, hbody, if_neg (not_not.2 rfl), f.drop_body]
        · rw [← List.drop_append_of_le_length (Nat.not_lt.1 htotal), hbuf, ← f.bytes_length, List.drop_left]

theorem advance_ahead {p : FrameParser} {rest : Bytes} (h : Ahead p.buf rest) :
    p.advance.2.resyncCount = p.resyncCount ∧ Ahead p.advance.2.buf rest := by
  rcases tryOne_ahead h with hone | ⟨f, n, hone, hahead⟩ <;>
    rcases p.advance_cases with ⟨-, hadv⟩ | ⟨hst, -⟩ | ⟨_, hst, hadv⟩
  · rw [hadv, hone]
    exact ⟨rfl, h⟩
  · rw [hone] at hst
    cases hst
  · rw [hone] at hst
    cases hst
  · rw [hadv, hone]
    exact ⟨rfl, hahead⟩
  · rw [hone] at hst
    cases hst
  · rw [hadv, hone]
    exact ⟨rfl, hahead⟩

theorem drain_ahead {p : FrameParser} {rest : Bytes} (h : Ahead p.buf rest) :
    p.drain.2.resyncCount = p.resyncCount := by
  induction hlen : p.buf.length using Nat.strongRecOn generalizing p with
  | ind n ih =>
    obtain ⟨hcount, hahead⟩ := advance_ahead h
    rcases p.drain_cases with ⟨-, hdrain⟩ | ⟨f, hadv, hdrain⟩
    · rw [hdrain]
      exact hcount
    · rw [hdrain]
      exact (ih _ (hlen ▸ p.advance_spec.2.2 (by rw [hadv]; exact Option.some_ne_none f)) hahead rfl).trans hcount

namespace Session

/-- While the bytes are those of frames, nothing is given up. -/
theorem run_unsynced (ops : List Op) {rest : Bytes} (h : Ahead (run ops).taken rest) :
    (run ops).parser.resyncCount = 0 ∧ Ahead (run ops).parser.buf rest := by
  have hkeeps := @run_keeps (fun s => ∀ rest, Ahead s.taken rest → s.parser.resyncCount = 0 ∧ Ahead s.parser.buf rest)
    ?_ ?_ ?_ ops
  · exact hkeeps rest h
  · exact fun _ h => ⟨rfl, h⟩
  · intro s i chunk ih rest h
    have happend (b : Bytes) : Ahead (b ++ chunk) rest ↔
        Ahead b (chunk ++ rest) := by simp only [Ahead, List.append_assoc]
    obtain ⟨hcount, hahead⟩ := ih (chunk ++ rest) ((happend _).1 h)
    obtain ⟨hcount', hahead'⟩ :=
      @advance_ahead { s.parser with buf := s.parser.buf ++ chunk } rest ((happend _).2 hahead)
    exact ⟨hcount'.trans hcount, hahead'⟩
  · exact fun _ _ ih => ih

/-! ## The stream, whatever the cuts -/

/-- **The same bytes give the same frames and checksum errors**, however they were cut and however far each generator
was run. -/
theorem segmentation_independent (ops ops' : List Op) (h : (run ops).taken = (run ops').taken) :
    (run ops).finish.out = (run ops').finish.out ∧
    (run ops).finish.parser.crcErrorCount = (run ops').finish.parser.crcErrorCount ∧
    (run ops).finish.parser.buf.length < MAX_FRAME ∧ (run ops').finish.parser.buf.length < MAX_FRAME := by
  obtain ⟨hframes, herrors, hshort⟩ := finish_spec ops
  obtain ⟨hframes', herrors', hshort'⟩ := finish_spec ops'
  exact ⟨by rw [hframes, hframes', h], by rw [herrors, herrors', h], hshort, hshort'⟩

/-- `MDF1` and more, whole or cut inside the anchor, one generator left half way. -/
theorem segmentation_cut : (run [.feed [77, 68, 70, 49, 0, 0], .next 0]).finish.out =
    (run [.feed [77, 68], .next 0, .feed [70, 49, 0, 0], .next 0, .next 1]).finish.out :=
  (segmentation_independent [.feed [77, 68, 70, 49, 0, 0], .next 0] [.feed [77, 68], .next 0, .feed [70, 49, 0, 0],
    .next 0, .next 1]
    (by decide +kernel)).1

/-- **Garbage is contained**: where nothing in it passes the checks, the frames after it come out first, all of them
and in order. -/
theorem garbage_contained (g rest enc : Bytes) (fs : List Frame) (henc : encodeAll fs = .ok enc)
    (hrest : MAX_FRAME ≤ rest.length)
    (hg : ∀ i < g.length, ¬Passes ((g ++ enc ++ rest).drop i)) (ops : List Op)
    (hops : (run ops).taken = g ++ enc ++ rest) :
    (run ops).finish.out = fs ++ framesOf rest := by
  obtain ⟨hle, rfl⟩ := encodeAll_some henc
  rw [List.append_assoc] at hg hops
  rw [(finish_spec ops).1, hops, framesOf_garbage g _ (by rw [List.length_append]; omega) hg, (framesOf_all hle rest).1]

/-- One byte of garbage, one frame. -/
theorem garbage_contained_byte :
    (run [.feed ([0] ++ ([⟨2, 1, 0, [5]⟩].map Frame.bytes).flatten ++ List.replicate MAX_FRAME 0),
      .next 0]).finish.out =
    [⟨2, 1, 0, [5]⟩] ++ framesOf (List.replicate MAX_FRAME 0) := by
  refine garbage_contained [0] (List.replicate MAX_FRAME 0) _ [⟨2, 1, 0, [5]⟩] (encodeAll_ok ?_)
    (Nat.le_of_eq List.length_replicate.symm) ?_ _ rfl
  · decide
  · rintro i hi ⟨hmagic, -⟩
    obtain rfl : i = 0 := Nat.lt_one_iff.1 hi
    exact absurd (congrArg List.head? hmagic) (by simp [slice, MAGIC])

/-- **Round trip**: frames written and read back, however the bytes are cut, are the frames, and nothing else is
counted. -/
theorem round_trip (fs : List Frame) (hfs : ∀ f ∈ fs, f.payload.length ≤ MAX_PAYLOAD) :
    ∃ enc, encodeAll fs = .ok enc ∧ ∀ ops, (run ops).taken = enc →
      (run ops).finish.out = fs ∧ (run ops).finish.parser.crcErrorCount = 0 ∧
      (run ops).finish.parser.resyncCount = 0 := by
  refine ⟨_, encodeAll_ok hfs, fun ops hops => ?_⟩
  obtain ⟨hframes, herrors, -⟩ := finish_spec ops
  obtain ⟨hall, hnone⟩ := framesOf_all hfs []
  have hahead : Ahead (run ops).taken [] := ⟨fs, hfs, by rw [hops, List.append_nil]⟩
  obtain ⟨hcount, hbuf⟩ := run_unsynced ops hahead
  have hnil : framesOf [] = [] ∧ errorsOf [] = 0 := by
    rw [framesOf, errorsOf, read_short (by decide)]
    exact ⟨rfl, rfl⟩
  rw [List.append_nil, hnil.1, List.append_nil] at hall
  rw [List.append_nil, hnil.2] at hnone
  exact ⟨by rw [hframes, hops, hall], by rw [herrors, hops, hnone], (drain_ahead hbuf).trans hcount⟩

/-- A payload that holds the anchor, and one of its own. -/
theorem round_trip_anchor : ∃ enc, encodeAll [⟨2, 7, 1, [77, 68, 70, 49, 1]⟩, ⟨255, 0, 0, []⟩] = .ok enc ∧
    (run [.feed (enc.take 10), .next 0, .feed (enc.drop 10), .next 1]).finish.out = [⟨2, 7, 1, [77, 68, 70, 49, 1]⟩,
      ⟨255, 0, 0, []⟩] := by
  obtain ⟨enc, henc, h⟩ := round_trip [⟨2, 7, 1, [77, 68, 70, 49, 1]⟩, ⟨255, 0, 0, []⟩] (by decide)
  exact ⟨enc, henc, (h [.feed (enc.take 10), .next 0, .feed (enc.drop 10), .next 1] (List.take_append_drop 10 enc)).1⟩

end Session

end Mdfp

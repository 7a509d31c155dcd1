import MarketFeed.Lib.Run
import MarketFeed.Protocol.Cpp
import Mathlib.Data.Nat.Find
/-!
# The two bus subscribers over several connections (bus.py:271-314, cpp/include/mdfp/bus_subscriber.hpp:44-72)

Both read one connection after the other and feed what they get to one parser. `schedule_retry` gives the C++
subscriber a new parser with every connection; `UDSSubscriber` makes its parser once, and what it held of the
connection that was cut is read together with the first bytes of the next.

| here | there |
| --- | --- |
| `Connection.frames` | what the publisher writes to the connection |
| `Connection.got` | how many bytes of it have come, in chunks of any size |
| `Connection.stale` | not in the source: what the Python parser held when the connection was made |
| `World.whole` | not in the source: the frames that came whole over the connections before |

`reconnects` is about all runs of the C++ subscriber and about those of the other in which nothing stale stands
in the way.
-/

namespace Bus.Reconnect

open Mdfp
open Gateway (Bytes)

structure Connection where
  frames : List Frame
  got : ℕ
  stale : Bytes
  deriving DecidableEq

/-- The bytes written. -/
def Connection.stream (c : Connection) : Bytes := (c.frames.map Frame.bytes).flatten

def Connection.received (c : Connection) : Bytes := c.stream.take c.got

/-- The frames whose last byte is among the first `n`. -/
def wholeFrames : List Frame → ℕ → List Frame
  | [], _ => []
  | f :: fs, n => if f.bytes.length ≤ n then f :: wholeFrames fs (n - f.bytes.length) else []

structure World where
  connectCount : ℕ
  parser : FrameParser
  out : List Frame
  cppParser : Cpp.FrameParser
  cppOut : List Frame
  conn : Option Connection
  whole : List Frame

def World.start : World := ⟨0, .init, [], .init, [], none, []⟩

inductive Act
  | connect (frames : List Frame)
  | receive (n : ℕ)
  | cut

/-- A chunk goes to `self.parser.feed` in one subscriber, to `parser.feed` in the other. -/
def World.receive (w : World) (c : Connection) (n : ℕ) : World :=
  let chunk := (c.stream.drop c.got).take n
  let r := FrameParser.drain { w.parser with buf := w.parser.buf ++ chunk }
  let r' := w.cppParser.feed (fun _ => false) chunk
  { w with parser := r.2, out := w.out ++ r.1, cppParser := r'.2, cppOut := w.cppOut ++ r'.1, conn := some { c with got := c.got + n } }

def World.step (w : World) : Act → Option World
  | .connect frames =>
    match w.conn with
    | none => if ∀ f ∈ frames, f.payload.length ≤ MAX_PAYLOAD then
        some { w with connectCount := w.connectCount + 1, conn := some ⟨frames, 0, w.parser.buf⟩ } else none
    | some _ => none
  | .receive n => w.conn.bind fun c => if 0 < n ∧ c.got + n ≤ c.stream.length then some (w.receive c n) else none
  | .cut => w.conn.map fun c =>
    { w with cppParser := .init, conn := none, whole := w.whole ++ wholeFrames c.frames c.got }

/-- The frames that have come whole, over the connections so far. -/
def World.complete (w : World) : List Frame := w.whole ++ w.conn.elim [] fun c => wholeFrames c.frames c.got

/-- What passes for the header of a frame. -/
def Starts (b : Bytes) : Prop :=
  HEADER_SIZE ≤ b.length ∧ slice b 0 4 = MAGIC ∧ (header b).ver = VERSION ∧ (header b).length ≤ MAX_PAYLOAD

instance (b : Bytes) : Decidable (Starts b) := inferInstanceAs (Decidable (_ ∧ _))

/-- The first place of what is stale that passes for a header, if there is one, waits for more, and no frame is whole
meanwhile. -/
def Connection.Unharmed (c : Connection) : Prop :=
  ∀ i < c.stale.length, (∀ j < i, ¬ Starts ((c.stale ++ c.received).drop j)) → Starts ((c.stale ++ c.received).drop i) →
    ((c.stale ++ c.received).drop i).length < HEADER_SIZE + (header ((c.stale ++ c.received).drop i)).length +
      CRC_SIZE ∧
      wholeFrames c.frames c.got = []

/-- What the step must be: with what it brings nothing stale stands in the way. -/
def Clear (w : World) : Act → Prop
  | .receive n => ∀ c, w.conn = some c → Connection.Unharmed { c with got := c.got + n }
  | _ => True

/-! ## Reading behind what is stale -/

theorem look_of_not_starts {b : Bytes} (hlen : HEADER_SIZE ≤ b.length) (h : ¬ Starts b) : look b = some (none, 1) := by
  have h4 : MAGIC.length = 4 := rfl
  have h20 : HEADER_SIZE = 20 := rfl
  unfold look
  rw [if_neg (by omega)]
  split
  · rfl
  · rename_i hm
    rw [if_neg (by omega), if_pos]
    by_contra hbad
    obtain ⟨hver, hlong⟩ := not_or.1 hbad
    exact h ⟨hlen, not_not.1 hm, not_not.1 hver, Nat.not_lt.1 hlong⟩

theorem look_of_waits {b : Bytes} (h : Starts b) (hwait : b.length < HEADER_SIZE + (header b).length + CRC_SIZE) :
    look b = none := by
  obtain ⟨hlen, hmagic, hver, hlong⟩ := h
  have h4 : MAGIC.length = 4 := rfl
  have h20 : HEADER_SIZE = 20 := rfl
  rw [look, if_neg (by omega), if_neg (not_not.2 hmagic), if_neg (by omega),
    if_neg (not_or.2 ⟨not_not.2 hver, Nat.not_lt.2 hlong⟩), if_pos hwait]

/-- Where nothing passes for a header, what follows is read as if it stood alone. -/
theorem read_behind {b c : Bytes} (h : ∀ i < b.length, ¬ Starts ((b ++ c).drop i)) :
    (reader.read (b ++ c)).1 = (reader.read c).1 := by
  induction b with
  | nil => rfl
  | cons x b ih =>
    by_cases hlen : HEADER_SIZE ≤ (x :: b ++ c).length
    · have hlook := look_of_not_starts hlen (h 0 (Nat.zero_lt_succ _))
      rw [Scan.read_take reader hlook]
      exact ih fun i hi => h (i + 1) (Nat.succ_lt_succ hi)
    · have hshort : c.length < HEADER_SIZE + CRC_SIZE := by
        simp only [List.cons_append, List.length_cons, List.length_append] at hlen
        omega
      rw [read_short (Nat.lt_of_lt_of_le (Nat.not_le.1 hlen) (by decide)), read_short hshort]

/-- Where the first place that passes for a header waits, nothing comes out. -/
theorem read_waits {b : Bytes} {i : ℕ} (hbefore : ∀ j < i, ¬ Starts (b.drop j)) (hi : Starts (b.drop i))
    (hwait : (b.drop i).length < HEADER_SIZE + (header (b.drop i)).length + CRC_SIZE) : (reader.read b).1 = [] := by
  have hskip := @Scan.read_skip _ _ reader b i fun j hj => look_of_not_starts ?_ (hbefore j hj)
  · rw [hskip, Scan.read_wait reader (look_of_waits hi hwait)]
  · have hlen := hi.1
    simp only [List.length_drop] at hlen ⊢
    omega

theorem Connection.Unharmed.read {c : Connection} (h : c.Unharmed) :
    (reader.read (c.stale ++ c.received)).1 = (reader.read c.received).1 ∨
      (reader.read (c.stale ++ c.received)).1 = [] ∧ wholeFrames c.frames c.got = [] := by
  by_cases hex : ∃ i, i < c.stale.length ∧ Starts ((c.stale ++ c.received).drop i)
  · classical
    obtain ⟨hlt, hstarts⟩ := Nat.find_spec hex
    have hbefore : ∀ j < Nat.find hex, ¬ Starts ((c.stale ++ c.received).drop j) :=
      fun j hj hs => Nat.find_min hex hj ⟨Nat.lt_trans hj hlt, hs⟩
    obtain ⟨hwait, hnone⟩ := h _ hlt hbefore hstarts
    exact .inr ⟨read_waits hbefore hstarts hwait, hnone⟩
  · exact .inl (read_behind fun i hi hs => hex ⟨i, hi, hs⟩)

/-! ## The frames of one connection -/

/-- A frame that is cut waits. -/
theorem look_cut {f : Frame} (hf : f.payload.length ≤ MAX_PAYLOAD) {n : ℕ} (hn : n < f.bytes.length) :
    look (f.bytes.take n) = none := by
  cases hlook : look (f.bytes.take n) with
  | none => rfl
  | some v =>
    have hwhole := look_stable hlook (f.bytes.drop n)
    have hbytes := look_bytes hf []
    rw [List.append_nil] at hbytes
    rw [List.take_append_drop, hbytes] at hwhole
    cases hwhole
    have hpos := (look_pos hlook).2
    rw [List.length_take] at hpos
    omega

/-- What is read of a cut stream: the whole frames of it, and no checksum error. -/
theorem read_received {fs : List Frame} (hfs : ∀ f ∈ fs, f.payload.length ≤ MAX_PAYLOAD) (n : ℕ) :
    framesOf ((fs.map Frame.bytes).flatten.take n) = wholeFrames fs n ∧
      errorsOf ((fs.map Frame.bytes).flatten.take n) = 0 := by
  induction fs generalizing n with
  | nil =>
    have hwait : reader.look [] = none := rfl
    simp [framesOf, errorsOf, Scan.read_wait reader hwait, wholeFrames, frames, errors]
  | cons f fs ih =>
    have hf := hfs f List.mem_cons_self
    obtain ⟨hframes, herrors⟩ := ih (fun f' hf' => hfs f' (List.mem_cons_of_mem f hf')) (n - f.bytes.length)
    rw [List.map_cons, List.flatten_cons, List.take_append, wholeFrames]
    by_cases hn : f.bytes.length ≤ n
    · have hbytes := framesOf_bytes hf ((fs.map Frame.bytes).flatten.take (n - f.bytes.length))
      rw [List.take_of_length_le hn, hbytes.1, hbytes.2, hframes, herrors, if_pos hn]
      exact ⟨rfl, rfl⟩
    · have hwait : reader.look (f.bytes.take n) = none := look_cut hf (Nat.not_le.1 hn)
      rw [Nat.sub_eq_zero_of_le (Nat.le_of_not_le hn), List.take_zero, List.append_nil, if_neg hn, framesOf, errorsOf,
        Scan.read_wait reader hwait]
      exact ⟨rfl, rfl⟩

/-! ## A parser and what it has taken -/

/-- `p` has been fed `taken` since its count of checksum errors was zero; `out` came out, and nothing more is to come.
-/
structure Took (p : FrameParser) (out : List Frame) (taken : Bytes) : Prop where
  frames : ∀ c, out ++ framesOf (p.buf ++ c) = framesOf (taken ++ c)
  errors : ∀ c, p.crcErrorCount + errorsOf (p.buf ++ c) = errorsOf (taken ++ c)
  idle : p.Idle

namespace Took

variable {p : FrameParser} {out : List Frame} {taken : Bytes}

theorem out_eq (h : Took p out taken) : out = framesOf taken := by
  have hframes := h.frames []
  simpa [framesOf, h.idle.quiet, Mdfp.frames] using hframes

theorem errors_eq (h : Took p out taken) : p.crcErrorCount = errorsOf taken := by
  have herrors := h.errors []
  simpa [errorsOf, h.idle.quiet, Mdfp.errors] using herrors

/-- A parser without checksum errors that has nothing to give has taken what it holds. -/
theorem of_idle (h : p.Idle) (hcrc : p.crcErrorCount = 0) : Took p [] p.buf :=
  ⟨fun _ => rfl, fun c => by rw [hcrc, Nat.zero_add], h⟩

theorem init : Took .init [] [] :=
  of_idle ⟨by rw [show FrameParser.init.buf = [] from rfl, Scan.read_wait reader rfl], by decide⟩ rfl

theorem feed (h : Took p out taken) (chunk : Bytes) :
    Took (FrameParser.drain { p with buf := p.buf ++ chunk }).2
      (out ++ (FrameParser.drain { p with buf := p.buf ++ chunk }).1) (taken ++ chunk) := by
  obtain ⟨hcont, hidle⟩ := FrameParser.drain_spec { p with buf := p.buf ++ chunk }
  refine ⟨fun c => ?_, fun c => ?_, hidle⟩
  · have hstep := hcont.frames c
    rw [List.append_assoc] at hstep
    rw [List.append_assoc, ← hstep, h.frames, List.append_assoc]
  · have hstep := hcont.errors c
    rw [List.append_assoc] at hstep
    rw [← hstep, h.errors, List.append_assoc]

end Took

/-- A callback that never throws gets all that comes out. -/
theorem each_all (p : FrameParser) : p.each (fun _ => false) = p.drain := by
  induction hlen : p.buf.length using Nat.strongRecOn generalizing p with
  | ind n ih =>
    rcases p.each_advance fun _ => false with ⟨hnone, heach⟩ | ⟨f, hf, heach⟩ <;> rcases p.drain_cases with ⟨hnone', hdrain⟩ | ⟨f', hf', hdrain⟩
    · rw [heach, hdrain]
    · rw [hnone] at hf'
      cases hf'
    · rw [hnone'] at hf
      cases hf
    · rw [hf] at hf'
      cases hf'
      have hlt := p.advance_spec.2.2 (by rw [hf]; exact Option.some_ne_none f)
      rw [heach, hdrain, ih _ (hlen ▸ hlt) p.advance.2 rfl]
      rfl

/-! ## Runs -/

def World.received (w : World) : Bytes := w.conn.elim [] Connection.received

/-- The connection's frames are ones the publisher can write. -/
def Valid (w : World) : Prop := ∀ c, w.conn = some c → ∀ f ∈ c.frames, f.payload.length ≤ MAX_PAYLOAD

/-- The C++ subscriber: its parser has taken what has come over this connection. -/
def CppInv (w : World) : Prop := ∃ p out, Cpp.Same w.cppParser p ∧ Took p out w.received ∧ w.cppOut = w.whole ++ out

/-- The Python subscriber: its parser has taken that, after what was stale. -/
def PyInv (w : World) : Prop :=
  ∃ out, Took w.parser out (w.conn.elim w.parser.buf fun c => c.stale ++ c.received) ∧ w.out = w.whole ++ out ∧
    out = w.conn.elim [] (fun c => wholeFrames c.frames c.got) ∧ w.parser.crcErrorCount = 0

theorem received_add (c : Connection) (n : ℕ) :
    Connection.received { c with got := c.got + n } = c.received ++ (c.stream.drop c.got).take n := List.take_add

theorem valid_step {w w' : World} {a : Act} (h : Valid w) (hst : w.step a = some w') : Valid w' := by
  intro c hc
  cases a with
  | connect frames =>
    simp only [World.step] at hst
    split at hst
    · obtain ⟨hfits, he⟩ := Option.ite_none_right_eq_some.1 hst
      cases he
      cases hc
      exact hfits
    · cases hst
  | receive n =>
    obtain ⟨c', hc', hst⟩ := Option.bind_eq_some_iff.1 hst
    obtain ⟨-, he⟩ := Option.ite_none_right_eq_some.1 hst
    cases he
    cases hc
    exact h c' hc'
  | cut =>
    obtain ⟨c', -, rfl⟩ := Option.map_eq_some_iff.1 hst
    cases hc

theorem same_init : Cpp.Same .init .init := ⟨rfl, Nat.le_refl _, rfl, rfl⟩

theorem cppInv_step {w w' : World} {a : Act} (hv : Valid w) (h : CppInv w) (hst : w.step a = some w') : CppInv w' := by
  obtain ⟨p, out, hsame, htook, hout⟩ := h
  cases a with
  | connect frames =>
    simp only [World.step] at hst
    split at hst
    case h_1 hnone =>
      obtain ⟨-, he⟩ := Option.ite_none_right_eq_some.1 hst
      cases he
      simp only [World.received, hnone, Option.elim_none] at htook
      exact ⟨p, out, hsame, htook, hout⟩
    case h_2 => cases hst
  | receive n =>
    obtain ⟨c, hc, hst⟩ := Option.bind_eq_some_iff.1 hst
    obtain ⟨-, he⟩ := Option.ite_none_right_eq_some.1 hst
    cases he
    obtain ⟨hframes, hsame'⟩ := Cpp.loop_same (fun _ => false) (hsame.append ((c.stream.drop c.got).take n))
    rw [each_all] at hframes hsame'
    simp only [World.received, hc, Option.elim_some] at htook
    refine ⟨_, out ++ (FrameParser.drain { p with buf := p.buf ++ (c.stream.drop c.got).take n }).1, hsame', ?_, ?_⟩
    · simp only [World.received, World.receive, Option.elim_some, received_add]
      exact htook.feed _
    · simp only [World.receive, Cpp.FrameParser.feed, hout, hframes, List.append_assoc]
  | cut =>
    obtain ⟨c, hc, rfl⟩ := Option.map_eq_some_iff.1 hst
    simp only [World.received, hc, Option.elim_some] at htook
    refine ⟨.init, [], same_init, .init, ?_⟩
    rw [List.append_nil, hout, htook.out_eq]
    exact congrArg _ (read_received (hv c hc) c.got).1

theorem wholeFrames_front (fs : List Frame) (n : ℕ) : wholeFrames fs n <+: fs := by
  induction fs generalizing n with
  | nil => exact List.prefix_rfl
  | cons f fs ih =>
    unfold wholeFrames
    split
    · exact (List.prefix_cons_inj f).2 (ih _)
    · exact List.nil_prefix

theorem wholeFrames_zero (fs : List Frame) : wholeFrames fs 0 = [] := by
  cases fs with
  | nil => rfl
  | cons f fs => exact if_neg (by rw [Frame.bytes_length, HEADER_SIZE]; omega)

theorem pyInv_step {w w' : World} {a : Act} (hv : Valid w) (h : PyInv w) (hclear : Clear w a)
    (hst : w.step a = some w') : PyInv w' := by
  obtain ⟨out, htook, hout, hwhole, hcrc⟩ := h
  cases a with
  | connect frames =>
    simp only [World.step] at hst
    split at hst
    case h_1 hnone =>
      obtain ⟨-, he⟩ := Option.ite_none_right_eq_some.1 hst
      cases he
      rw [hnone] at htook hwhole
      have hstale : w.parser.buf ++ Connection.received ⟨frames, 0, w.parser.buf⟩ = w.parser.buf := List.append_nil _
      refine ⟨out, ?_, hout, hwhole.trans (wholeFrames_zero frames).symm, hcrc⟩
      simpa only [Option.elim_some, Option.elim_none, hstale] using htook
    case h_2 => cases hst
  | receive n =>
    obtain ⟨c, hc, hst⟩ := Option.bind_eq_some_iff.1 hst
    obtain ⟨-, he⟩ := Option.ite_none_right_eq_some.1 hst
    cases he
    rw [hc, Option.elim_some] at htook
    have hnext := htook.feed ((c.stream.drop c.got).take n)
    rw [List.append_assoc, ← received_add] at hnext
    obtain ⟨hframes, herrors⟩ := read_received (hv c hc) (c.got + n)
    have hread : framesOf (c.stale ++ Connection.received { c with got := c.got + n }) = wholeFrames c.frames
      (c.got + n) ∧
        errorsOf (c.stale ++ Connection.received { c with got := c.got + n }) = 0 := by
      rcases (hclear c hc).read with hread | ⟨hread, hnone⟩
      · rw [framesOf, errorsOf, hread]
        exact ⟨hframes, herrors⟩
      · rw [framesOf, errorsOf, hread, show wholeFrames c.frames (c.got + n) = [] from hnone]
        exact ⟨rfl, rfl⟩
    exact ⟨_, hnext, by simp only [World.receive, hout, List.append_assoc], hnext.out_eq.trans hread.1, hnext.errors_eq.trans hread.2⟩
  | cut =>
    obtain ⟨c, hc, rfl⟩ := Option.map_eq_some_iff.1 hst
    rw [hc, Option.elim_some] at hwhole
    exact ⟨[], .of_idle htook.idle hcrc, by rw [List.append_nil, hout, hwhole], rfl, hcrc⟩

/-- **Reconnecting.** In every run the C++ subscriber has emitted the whole frames of every connection, each with its
last byte, and has counted no checksum error; the Python subscriber has where with every chunk nothing it held of
earlier connections stood in the way. -/
theorem reconnects (as : List Act) (w : World) (h : Lts.Run World.step Lts.anyStep .start as w) :
    (w.cppOut = w.complete ∧ w.cppParser.crcErrorCount = 0) ∧
      (Lts.Run World.step Clear .start as w → w.out = w.complete ∧ w.parser.crcErrorCount = 0) := by
  have hboth := h.invariant (I := fun w => Valid w ∧ CppInv w) ⟨nofun, .init, [], same_init, .init, rfl⟩
    fun _ _ _ hs _ hst => ⟨valid_step hs.1 hst, cppInv_step hs.1 hs.2 hst⟩
  obtain ⟨hvalid, p, out, hsame, htook, hout⟩ := hboth
  constructor
  · have hread : framesOf w.received = w.conn.elim [] (fun c => wholeFrames c.frames c.got) ∧
        errorsOf w.received = 0 := by
      cases hc : w.conn with
      | none =>
        rw [World.received, hc]
        exact ⟨(Took.init.out_eq).symm, Took.init.errors_eq.symm⟩
      | some c =>
        rw [World.received, hc]
        exact read_received (hvalid c hc) c.got
    refine ⟨by rw [hout, htook.out_eq, hread.1, World.complete], ?_⟩
    rw [hsame.crcErrors, htook.errors_eq, hread.2]
    rfl
  · intro hclear
    have hpy := hclear.invariant (I := fun w => Valid w ∧ PyInv w) ⟨nofun, [], .init, rfl, rfl, rfl⟩
      fun _ _ _ hs hok hst => ⟨valid_step hs.1 hst, pyInv_step hs.1 hs.2 hok hst⟩
    obtain ⟨-, out, -, hout, hwhole, hcrc⟩ := hpy
    exact ⟨by rw [hout, hwhole, World.complete], hcrc⟩

/-- One frame is cut after `n` bytes of it, and `m` bytes of another come over the next connection. -/
theorem run_cut {ok : World → Act → Prop} {f g : Frame} {n m : ℕ} (hf : f.payload.length ≤ MAX_PAYLOAD)
    (hg : g.payload.length ≤ MAX_PAYLOAD)
    (hn : 0 < n ∧ n ≤ f.bytes.length) (hm : 0 < m ∧ m ≤ g.bytes.length)
    (hwait : FrameParser.drain ⟨f.bytes.take n, 0, 0⟩ = ([], ⟨f.bytes.take n, 0, 0⟩))
    (hconnect : ∀ u fs, ok u (.connect fs)) (hcut : ∀ u, ok u .cut) (hfirst : ∀ u, u.conn = some ⟨[f], 0, []⟩ →
      ok u (.receive n))
    (hsecond : ∀ u, u.conn = some ⟨[g], 0, f.bytes.take n⟩ → ok u (.receive m)) :
    ∃ w, Lts.Run World.step ok .start [.connect [f], .receive n, .cut, .connect [g], .receive m] w ∧
      w.out = (FrameParser.drain ⟨f.bytes.take n ++ g.bytes.take m, 0, 0⟩).1 ∧ w.complete = wholeFrames [f] n ++ wholeFrames [g] m := by
  have hstream : ∀ (f : Frame) (k : ℕ) (b : Bytes), Connection.stream ⟨[f], k, b⟩ = f.bytes :=
    fun f k b => List.append_nil _
  have hconnected : World.start.step (.connect [f]) = some { World.start with connectCount := 1, conn := some ⟨[f], 0, []⟩ } :=
    if_pos (by simpa using hf)
  have hreceived : World.step { World.start with connectCount := 1, conn := some ⟨[f], 0, []⟩ } (.receive n) =
      some (World.receive { World.start with connectCount := 1, conn := some ⟨[f], 0, []⟩ } ⟨[f], 0, []⟩ n) :=
    if_pos (by simpa [hstream] using hn)
  have hfed : FrameParser.drain ⟨[] ++ ((Connection.stream ⟨[f], 0, []⟩).drop 0).take n, 0, 0⟩ =
      ([], ⟨f.bytes.take n, 0, 0⟩) := by
    rw [hstream]
    exact hwait
  obtain ⟨u, hu, hparser, hout, hwhole, hconn⟩ :
      ∃ u, World.step (World.receive { World.start with connectCount := 1, conn := some ⟨[f], 0, []⟩ }
      ⟨[f], 0, []⟩ n) .cut = some u ∧ u.parser = ⟨f.bytes.take n, 0, 0⟩ ∧ u.out = [] ∧ u.whole = wholeFrames [f] n ∧
        u.conn = none :=
    ⟨_, rfl, congrArg Prod.snd hfed, congrArg Prod.fst hfed, by simp [World.receive, World.start], rfl⟩
  have hagain : u.step (.connect [g]) = some { u with connectCount := u.connectCount + 1, conn := some ⟨[g], 0, f.bytes.take n⟩ } := by
    simp [World.step, hconn, hparser, hg]
  have hlast : World.step { u with connectCount := u.connectCount + 1, conn := some ⟨[g], 0, f.bytes.take n⟩ }
    (.receive m) =
      some (World.receive { u with connectCount := u.connectCount + 1, conn := some ⟨[g], 0, f.bytes.take n⟩ }
        ⟨[g], 0, f.bytes.take n⟩ m) :=
    if_pos (by simpa [hstream] using hm)
  refine ⟨_, .cons (hconnect _ _) hconnected
    (.cons (hfirst _ rfl) hreceived (.cons (hcut _) hu (.cons (hconnect _ _) hagain
    (.cons (hsecond _ rfl) hlast (.nil _))))), ?_, ?_⟩
  · simp only [World.receive, hout, hparser, hstream, List.nil_append, List.drop_zero]
  · simp [World.complete, World.receive, hwhole]

/-- A heartbeat, and a longer frame. -/
def beat : Frame := ⟨1, 1, 0, List.replicate 8 0⟩

def long : Frame := ⟨1, 1, 0, List.replicate 100 0⟩

/-- A connection cut inside the anchor, then one that brings a heartbeat. -/
theorem reconnects_in_anchor :
    ∃ w, Lts.Run World.step Lts.anyStep .start [.connect [long], .receive 2, .cut, .connect [beat], .receive 32] w ∧
    w.cppOut = [beat] ∧ w.out = [beat] := by
  have hsecond : Connection.Unharmed ⟨[beat], 32, long.bytes.take 2⟩ := by
    intro i hi _ hstarts
    have hnot : ∀ i < 2, ¬ Starts ((long.bytes.take 2 ++ Connection.received ⟨[beat], 32, long.bytes.take 2⟩).drop
        i) := by decide +kernel
    exact absurd hstarts (hnot i hi)
  have hfirst : ∀ u : World, u.conn = some ⟨[long], 0, []⟩ → Clear u (.receive 2) := by
    intro u hu c hc i hi
    cases hu.symm.trans hc
    cases hi
  have hlast : ∀ u : World, u.conn = some ⟨[beat], 0, long.bytes.take 2⟩ → Clear u (.receive 32) := by
    intro u hu c hc
    cases hu.symm.trans hc
    exact hsecond
  obtain ⟨w, hrun, -, hcomplete⟩ := @run_cut Clear long beat 2 32 (by decide) (by decide) (by decide +kernel)
    (by decide +kernel)
    (FrameParser.drain_wait (by decide +kernel)) (fun _ _ => trivial) (fun _ => trivial) hfirst hlast
  have hbeat : w.complete = [beat] := hcomplete.trans (by decide +kernel)
  have hany : Lts.Run World.step Lts.anyStep _ _ w := hrun.mono fun _ _ _ => trivial
  obtain ⟨hcpp, hpy⟩ := reconnects _ w hany
  exact ⟨w, hany, hcpp.1.trans hbeat, (hpy hrun).1.trans hbeat⟩

/-- **The next frame is held back.** A connection is cut after the header of a longer frame, and the heartbeat that
comes whole over the next one is taken for its payload. -/
theorem heartbeat_taken_for_payload : ∃ w, Lts.Run World.step Lts.anyStep .start
    [.connect [long], .receive 20, .cut, .connect [beat], .receive 32] w ∧ w.complete = [beat] ∧ w.out = [] := by
  obtain ⟨w, hrun, hout, hcomplete⟩ := @run_cut Lts.anyStep long beat 20 32 (by decide) (by decide)
    (by decide +kernel) (by decide +kernel)
    (FrameParser.drain_wait (by decide +kernel)) (fun _ _ => trivial) (fun _ => trivial) (fun _ _ => trivial)
    (fun _ _ => trivial)
  have hwait : FrameParser.drain ⟨long.bytes.take 20 ++ beat.bytes.take 32, 0, 0⟩ =
      ([], ⟨long.bytes.take 20 ++ beat.bytes.take 32, 0, 0⟩) :=
    FrameParser.drain_wait (by decide +kernel)
  exact ⟨w, hrun, hcomplete.trans (by decide +kernel), by rw [hout, hwait]⟩

end Bus.Reconnect

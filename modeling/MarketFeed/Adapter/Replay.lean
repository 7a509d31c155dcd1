import MarketFeed.Bus.Reconnect
import MarketFeed.Lib.Binary64
import MarketFeed.Protocol.Models
import MarketFeed.Retention.SameProof
/-!
# Recording and replay (services/feedd.py:65-85, adapters/replay.py:41-105)

`feedd` appends the frames it publishes to a file. The replay adapter reads the file in blocks with the parser of the
bus, waits out the gaps between the events and moves all of them by what the first one lies behind the clock.

| here | there |
| --- | --- |
| `record` | what `_publish` gives the recorder; a number is each time the one `seq` has (heartbeats take numbers too) |
| `Config.speed`, `Config.restamp` | `speed`, `restamp`, of the settings |
| `Player` | the variables of `_play_once`; `calls` counts the calls of `now_ns`, `sleeps` what is slept between two messages |
| `gap` | `gap`: the span in nanoseconds becomes a float, and the two divisions round |
| `Player.out` | the messages given to `_mark`, with their two times, which may outgrow 64 bits |

The last frame of a file may be cut: `feedd` was killed.
-/

namespace Adapter.Replay

open Mdfp
open Gateway (Bytes)
open Bus.Reconnect (wholeFrames Took)
open Double (binary64 Rounded rounded_self)

def MSG_TRADE : UInt8 := 2

def MSG_BOOK : UInt8 := 3

inductive Tick
  | trade (t : Trade)
  | book (b : BookTop)
  deriving DecidableEq

def Tick.tsEventNs : Tick → ℤ
  | .trade t => t.tsEventNs.toNat
  | .book b => b.tsEventNs.toNat

/-- The texts as they come back. -/
def Tick.shown : Tick → Tick
  | .trade t => .trade t.shown
  | .book b => .book b.shown

/-! ## Recording -/

def Tick.frame (seq : UInt64) : Tick → Option Frame
  | .trade t => t.pack.map fun payload => ⟨MSG_TRADE, seq, 0, payload⟩
  | .book b => b.pack.map fun payload => ⟨MSG_BOOK, seq, 0, payload⟩

def record (ticks : List (UInt64 × Tick)) : Option (List Frame) := ticks.mapM fun r => r.2.frame r.1

/-! ## Replay -/

structure Config where
  replaySpeed : ℚ
  replayRestamp : Bool

def Config.speed (cfg : Config) : ℚ := max cfg.replaySpeed 0

def Config.restamp (cfg : Config) : Bool := cfg.replayRestamp && decide (0 < cfg.speed)

structure Played where
  tick : Tick
  tsEventNs : ℤ
  tsRecvNs : ℤ

structure Player where
  prevEventNs : Option ℤ
  shiftNs : Option ℤ
  calls : ℕ
  sleeps : List ℚ
  out : List Played

def Player.start : Player := ⟨none, none, 0, [], []⟩

/-- `_decode`. -/
def decode (f : Frame) : Option Tick :=
  if f.msgType = MSG_TRADE ∧ Trade.SIZE ≤ f.payload.length then (Trade.unpack f.payload).map .trade
  else if f.msgType = MSG_BOOK ∧ BookTop.SIZE ≤ f.payload.length then (BookTop.unpack f.payload).map .book
  else none

def gap (cfg : Config) (prev ts : ℤ) : ℚ := binary64 (binary64 (binary64 (ts - prev : ℤ) / (10 ^ 9 : ℕ)) / cfg.speed)

/-- What is slept between two events, where it is neither nothing nor five seconds. -/
def pause (cfg : Config) (prev ts : ℤ) : List ℚ := if 0 < gap cfg prev ts ∧ gap cfg prev ts < (5 : ℕ) then
    [gap cfg prev ts] else []

variable (cfg : Config) (clock : ℕ → ℤ)

/-- One turn of the loop over the messages. -/
def Player.tick (p : Player) (msg : Tick) : Player :=
  let sleeps := if 0 < cfg.speed then p.sleeps ++ p.prevEventNs.elim [] fun prev => pause cfg prev msg.tsEventNs
    else p.sleeps
  if cfg.restamp then
    match p.shiftNs with
    | none =>
      let shift := clock p.calls - msg.tsEventNs
      ⟨some msg.tsEventNs, some shift, p.calls + 2, sleeps,
        p.out ++ [⟨msg, msg.tsEventNs + shift, clock (p.calls + 1)⟩]⟩
    | some shift => ⟨some msg.tsEventNs, some shift, p.calls + 1, sleeps,
        p.out ++ [⟨msg, msg.tsEventNs + shift, clock p.calls⟩]⟩
  else ⟨some msg.tsEventNs, p.shiftNs, p.calls + 1, sleeps, p.out ++ [⟨msg, msg.tsEventNs, clock p.calls⟩]⟩

def Player.frame (p : Player) (f : Frame) : Player :=
  match decode f with
  | none => p
  | some msg => p.tick cfg clock msg

/-- One block of the file: `for frame in parser.feed(chunk)`. -/
def playChunk (s : FrameParser × Player) (chunk : Bytes) : FrameParser × Player :=
  let r := FrameParser.drain { s.1 with buf := s.1.buf ++ chunk }
  (r.2, r.1.foldl (Player.frame cfg clock) s.2)

def playOnce (file : Bytes) : Player :=
  ((Retention.Canonical.fetchAll 65536 file).foldl (playChunk cfg clock) (.init, .start)).2

/-! ## The frames of a file -/

variable {cfg clock}

theorem play_chunks (cfg : Config) (clock : ℕ → ℤ) (chunks : List Bytes) {parser : FrameParser} {out : List Frame}
    {taken : Bytes} (h : Took parser out taken) :
    (chunks.foldl (playChunk cfg clock) (parser, out.foldl (Player.frame cfg clock) .start)).2 =
      (framesOf (taken ++ chunks.flatten)).foldl (Player.frame cfg clock) .start := by
  induction chunks generalizing parser out taken with
  | nil => simp [← h.out_eq]
  | cons chunk chunks ih =>
    have hnext := ih (h.feed chunk)
    rw [List.foldl_append, List.append_assoc] at hnext
    rw [List.foldl_cons, List.flatten_cons, ← hnext]
    rfl

/-- The blocks do not matter. -/
theorem playOnce_eq (file : Bytes) :
    playOnce cfg clock file = (framesOf file).foldl (Player.frame cfg clock) .start := by
  have h := play_chunks cfg clock (Retention.Canonical.fetchAll 65536 file) Took.init
  rw [Retention.Canonical.fetchAll_flatten (by decide)] at h
  exact h

/-! ## One message -/

theorem decode_frame {seq : UInt64} {m : Tick} {f : Frame} (h : m.frame seq = some f) : decode f = some m.shown ∧
    f.payload.length ≤ MAX_PAYLOAD := by
  cases m with
  | trade t =>
    rw [Tick.frame] at h
    obtain ⟨payload, hpack, rfl⟩ := Option.map_eq_some_iff.1 h
    have hlen : payload.length = Trade.SIZE :=
      (Struct.read_pack hpack (by exact ⟨fix_length _ _, fix_length _ _, trivial⟩)).2
    refine ⟨?_, hlen ▸ by decide⟩
    simp [decode, hlen, Trade.unpack_pack hpack, Tick.shown]
  | book b =>
    rw [Tick.frame] at h
    obtain ⟨payload, hpack, rfl⟩ := Option.map_eq_some_iff.1 h
    have hlen : payload.length = BookTop.SIZE :=
      (Struct.read_pack hpack (by exact ⟨fix_length _ _, fix_length _ _, trivial⟩)).2
    refine ⟨?_, hlen ▸ by decide⟩
    have htype : MSG_BOOK ≠ MSG_TRADE := by decide
    simp [decode, htype, hlen, BookTop.unpack_pack hpack, Tick.shown]

theorem exists_record (ticks : List (UInt64 × Tick)) : ∃ fs, record ticks = some fs ∧
    (∀ f ∈ fs, f.payload.length ≤ MAX_PAYLOAD) ∧
    fs.map decode = ticks.map fun r => some r.2.shown := by
  induction ticks with
  | nil => exact ⟨[], rfl, nofun, rfl⟩
  | cons r ticks ih =>
    obtain ⟨fs, hfs, hfits, hdecode⟩ := ih
    obtain ⟨f, hf⟩ : ∃ f, r.2.frame r.1 = some f := by
      cases r.2 with
      | trade t => exact ⟨_, by rw [Tick.frame, Trade.pack_eq, Option.map_some]⟩
      | book b => exact ⟨_, by rw [Tick.frame, BookTop.pack_eq, Option.map_some]⟩
    refine ⟨f :: fs, ?_, List.forall_mem_cons.2 ⟨(decode_frame hf).2, hfits⟩, ?_⟩
    · rw [record] at hfs ⊢
      simp [List.mapM_cons, hf, hfs]
    · rw [List.map_cons, List.map_cons, hdecode, (decode_frame hf).1]

/-! ## The times -/

theorem play_ticks {fs : List Frame} {ms : List Tick} (h : fs.map decode = ms.map some) (p : Player) :
    fs.foldl (Player.frame cfg clock) p = ms.foldl (Player.tick cfg clock) p := by
  induction fs generalizing ms p with
  | nil =>
    cases ms with
    | nil => rfl
    | cons m ms => cases h
  | cons f fs ih =>
    cases ms with
    | nil => cases h
    | cons m ms =>
      obtain ⟨hf, hfs⟩ := List.cons_eq_cons.1 h
      rw [List.foldl_cons, List.foldl_cons, ih hfs, Player.frame, hf]

/-- The gap is the scaled span after three roundings. -/
theorem gap_rounded (cfg : Config) (prev ts : ℤ) :
    Rounded 3 (gap cfg prev ts) ((ts - prev : ℤ) / (10 ^ 9 : ℕ) / cfg.speed) :=
  (((((rounded_self ((ts - prev : ℤ) : ℚ)).round (by norm_num)).div _).round (by norm_num)).div _).round (by norm_num)

/-- What is slept in front of the messages, the event before them given. -/
def pauses (cfg : Config) : ℤ → List Tick → List ℚ
  | _, [] => []
  | prev, m :: ms => pause cfg prev m.tsEventNs ++ pauses cfg m.tsEventNs ms

/-- What is slept between the messages. -/
def waits (cfg : Config) : List Tick → List ℚ
  | [] => []
  | m :: ms => if 0 < cfg.speed then pauses cfg m.tsEventNs ms else []

/-- From a message on, once it is known how far all are moved. -/
def Moved (cfg : Config) (shift : ℤ) (p : Player) : Prop := if cfg.restamp then p.shiftNs = some shift else shift = 0

theorem Moved.tick {shift : ℤ} {p : Player} (h : Moved cfg shift p) (clock : ℕ → ℤ) (m : Tick) :
    Moved cfg shift (p.tick cfg clock m) ∧
    (p.tick cfg clock m).prevEventNs = some m.tsEventNs ∧
    (p.tick cfg clock m).out.map (fun q => (q.tick, q.tsEventNs)) = p.out.map (fun q => (q.tick, q.tsEventNs)) ++
      [(m, m.tsEventNs + shift)] ∧
    (p.tick cfg clock m).sleeps =
      if 0 < cfg.speed then p.sleeps ++ p.prevEventNs.elim [] fun prev => pause cfg prev m.tsEventNs else p.sleeps := by
  unfold Moved Player.tick at *
  by_cases hre : cfg.restamp = true
  · simp only [hre, if_true] at h
    simp [hre, h]
  · simp only [hre, if_false, Bool.false_eq_true] at h
    simp [hre, h]

theorem Moved.play {shift : ℤ} (clock : ℕ → ℤ) (ms : List Tick) {p : Player} (h : Moved cfg shift p)
    {prev : ℤ} (hprev : p.prevEventNs = some prev) :
    (ms.foldl (Player.tick cfg clock) p).out.map (fun q => (q.tick, q.tsEventNs)) =
        p.out.map (fun q => (q.tick, q.tsEventNs)) ++ ms.map (fun m => (m, m.tsEventNs + shift)) ∧
      (ms.foldl (Player.tick cfg clock) p).sleeps = p.sleeps ++ if 0 < cfg.speed then pauses cfg prev ms else [] := by
  induction ms generalizing p prev with
  | nil => simp [pauses]
  | cons m ms ih =>
    obtain ⟨hnext, hprev', hout, hsleeps⟩ := h.tick clock m
    obtain ⟨hrest, hslept⟩ := ih hnext hprev'
    rw [List.foldl_cons, hrest, hslept, hout, hsleeps, hprev]
    refine ⟨by simp, ?_⟩
    split <;> simp [pauses]

/-- How far the messages are moved: the first to now. -/
def shiftOf (cfg : Config) (clock : ℕ → ℤ) : List Tick → ℤ
  | [] => 0
  | m :: _ => if cfg.restamp then clock 0 - m.tsEventNs else 0

theorem play_all (ms : List Tick) :
    (ms.foldl (Player.tick cfg clock) .start).out.map (fun q => (q.tick, q.tsEventNs)) =
      ms.map (fun m => (m, m.tsEventNs + shiftOf cfg clock ms)) ∧
      (ms.foldl (Player.tick cfg clock) .start).sleeps = waits cfg ms := by
  cases ms with
  | nil => exact ⟨rfl, rfl⟩
  | cons m ms =>
    have hfirst : Moved cfg (shiftOf cfg clock (m :: ms)) (Player.start.tick cfg clock m) ∧
        (Player.start.tick cfg clock m).prevEventNs = some m.tsEventNs ∧
        (Player.start.tick cfg clock m).out.map (fun q => (q.tick, q.tsEventNs)) =
          [(m, m.tsEventNs + shiftOf cfg clock (m :: ms))] ∧
        (Player.start.tick cfg clock m).sleeps = [] := by
      by_cases hre : cfg.restamp = true <;> simp [Moved, Player.tick, shiftOf, Player.start, hre]
    obtain ⟨hmoved, hprev, hout, hsleeps⟩ := hfirst
    obtain ⟨hrest, hslept⟩ := hmoved.play clock ms hprev
    rw [List.foldl_cons, hrest, hslept, hout, hsleeps]
    exact ⟨rfl, rfl⟩

/-- **What was recorded is replayed**: of a file cut anywhere the messages whose frames are whole come back, in order,
all moved by one span (so that the gaps between them are as they were), the first to the time of the clock, with their
gaps slept in between, each the scaled span after three roundings. -/
theorem replayed (ticks : List (UInt64 × Tick)) : ∃ fs file, record ticks = some fs ∧ encodeAll fs = .ok file ∧
    ∀ (cfg : Config) (clock : ℕ → ℤ) (n : ℕ), ∃ ms,
      ms = ((ticks.map fun r => r.2.shown).take (wholeFrames fs n).length) ∧
      (playOnce cfg clock (file.take n)).out.map (fun q => (q.tick, q.tsEventNs)) =
        ms.map (fun m => (m, m.tsEventNs + shiftOf cfg clock ms)) ∧
      (playOnce cfg clock (file.take n)).sleeps = waits cfg ms ∧ (file.length ≤ n → ms = ticks.map fun r => r.2.shown) ∧
      ∀ prev ts : ℤ, Rounded 3 (gap cfg prev ts) ((ts - prev : ℤ) / (10 ^ 9 : ℕ) / cfg.speed) := by
  obtain ⟨fs, hfs, hfits, hdecode⟩ := exists_record ticks
  refine ⟨fs, _, hfs, encodeAll_ok hfits, fun cfg clock n => ⟨_, rfl, ?_⟩⟩
  have hread := (Bus.Reconnect.read_received hfits n).1
  have hplayed : playOnce cfg clock ((fs.map Frame.bytes).flatten.take n) =
      ((ticks.map fun r => r.2.shown).take (wholeFrames fs n).length).foldl (Player.tick cfg clock) .start := by
    rw [playOnce_eq, hread]
    apply play_ticks
    conv_lhs => rw [List.prefix_iff_eq_take.1 (Bus.Reconnect.wholeFrames_front fs n)]
    rw [List.map_take, hdecode, List.map_take, List.map_map]
    rfl
  rw [hplayed]
  refine ⟨(play_all _).1, (play_all _).2, fun hall => ?_, gap_rounded cfg⟩
  have hwhole : wholeFrames fs n = fs := by
    have hframes := (framesOf_all hfits []).1
    rw [← hread, List.take_of_length_le hall]
    simpa using hframes
  have hlen : fs.length = ticks.length := by simpa using congrArg List.length hdecode
  rw [hwhole, hlen]
  exact List.take_of_length_le (by simp)

end Adapter.Replay

import Mathlib.Data.List.Basic
import MarketFeed.Lib.Scan
import MarketFeed.Protocol.Frame
/-!
# WebSocket frames and their decoder (src/mdfeed/wsproto.py:31-148)

`encode_frame` writes one whole frame. `FrameDecoder` takes the bytes as they come, takes the frames off
the front of its buffer, and hands on messages: a control frame by itself, a data message once its last
fragment is there.

| here | there |
| --- | --- |
| `Frame` | what `_parse` returns; `fin` and `opcode` are read off the first byte `b0` |
| `parse` | `_parse`; `.wait` is its `return None`, `.item f n` comes with `del self._buf[:n]` |
| `Frag` | `_frag_op`, `_frag` |
| `FrameDecoder.feed` | `feed`, its generator run to the end; with an error, what it had yielded before |
| `FrameDecoder.feedAll` | a connection: one `feed` a chunk, up to the first exception |
| `frameBytes` | the bytes `encode_frame` builds, with the FIN bit an argument: `encode_frame` always sets it |
| the argument `key` | `os.urandom(4)` |

`getBe`, `putBe` and `slice` are the integers of `struct` and the slices of the feed protocol's model.
-/

namespace Ws

open Mdfp (getBe slice slice_append slice_length slice_field getBe_putBe)
open Gateway (Bytes putBe putBe_length)

def OP_CONT : UInt8 := 0x0

def OP_TEXT : UInt8 := 0x1

def OP_BINARY : UInt8 := 0x2

def OP_CLOSE : UInt8 := 0x8

def OP_PING : UInt8 := 0x9

def OP_PONG : UInt8 := 0xA

def CONTROL_OPS : List UInt8 := [OP_CLOSE, OP_PING, OP_PONG]

def MAX_FRAME : ℕ := 16 * 1024 * 1024

structure WSError where
  text : String
  deriving DecidableEq

/-! ## Encoding -/

/-- `b ^ key[i & 3]` for every byte. -/
def xorKey (key payload : Bytes) : Bytes := payload.mapIdx fun i b => b ^^^ key.getD (i &&& 3) 0

/-- Four bytes. -/
structure Key where
  bytes : Bytes
  four : bytes.length = 4

/-- The length field: in the second byte, or in 2 or 8 bytes after it. -/
def lengthBytes (maskBit : UInt8) (n : ℕ) : Bytes :=
  if n < 126 then [maskBit ||| UInt8.ofNat n]
  else if n < 65536 then (maskBit ||| 126) :: putBe 2 n
  else (maskBit ||| 127) :: putBe 8 n

def frameBytes (fin : Bool) (opcode : UInt8) (payload : Bytes) (mask : Bool) (key : Key) : Bytes :=
  [(if fin then 0x80 else 0x00) ||| opcode] ++ lengthBytes (if mask then 0x80 else 0x00) payload.length ++
    if mask then key.bytes ++ xorKey key.bytes payload else payload

def encodeFrame (opcode : UInt8) (payload : Bytes) (mask : Bool) (key : Key) : Except WSError Bytes :=
  if opcode ∈ CONTROL_OPS ∧ 125 < payload.length then .error ⟨"제어 프레임은 125바이트를 넘을 수 없다"⟩
  else .ok (frameBytes true opcode payload mask key)

/-! ## Parsing -/

structure Frame where
  b0 : UInt8
  payload : Bytes
  deriving DecidableEq

def Frame.fin (f : Frame) : Bool := f.b0 &&& 0x80 != 0

def Frame.opcode (f : Frame) : UInt8 := f.b0 &&& 0x0F

/-- The three reserved bits of the first byte, which nothing reads. -/
def Frame.rsv (f : Frame) : UInt8 := f.b0 &&& 0x70

inductive Parsed
  | wait
  | raise (e : WSError)
  | item (f : Frame) (n : ℕ)
  deriving DecidableEq

/-- `length` and `off` once the length field has arrived. -/
def lengthAt (buf : Bytes) : Option (ℕ × ℕ) :=
  if buf.length < 2 then none
  else
    let length := (buf.getD 1 0 &&& 0x7F).toNat
    if length = 126 then
      if buf.length < 4 then none else some (getBe (slice buf 2 4), 4)
    else if length = 127 then
      if buf.length < 10 then none else some (getBe (slice buf 2 10), 10)
    else some (length, 2)

def maskedAt (buf : Bytes) : Bool := buf.getD 1 0 &&& 0x80 != 0

def tooLong (length : ℕ) : WSError := ⟨s!"프레임이 너무 큼: {length}"⟩

def wrongMask (masked : Bool) : WSError := ⟨if masked then "마스킹 규칙 위반 (masked=True)" else "마스킹 규칙 위반 (masked=False)"⟩

/-- `_parse`. -/
def parse (expectMasked : Bool) (buf : Bytes) : Parsed :=
  match lengthAt buf with
  | none => .wait
  | some (length, off) =>
    if MAX_FRAME < length then .raise (tooLong length)
    else if maskedAt buf ≠ expectMasked then .raise (wrongMask (maskedAt buf))
    else if maskedAt buf then
      if buf.length < off + 4 then .wait
      else if buf.length < off + 4 + length then .wait
      else .item ⟨buf.getD 0 0, xorKey (slice buf off (off + 4)) (slice buf (off + 4) (off + 4 + length))⟩
        (off + 4 + length)
    else if buf.length < off + length then .wait
    else .item ⟨buf.getD 0 0, slice buf off (off + length)⟩ (off + length)

/-! ## Decoding -/

/-- The open message: opcode 0 when there is none. -/
structure Frag where
  op : UInt8
  data : Bytes
  deriving DecidableEq

structure Message where
  opcode : UInt8
  payload : Bytes
  deriving DecidableEq

/-- What `feed` does with a frame: it yields a message or not. -/
def handle (frag : Frag) (f : Frame) : Except WSError (Option Message × Frag) :=
  if f.opcode ∈ CONTROL_OPS then .ok (some ⟨f.opcode, f.payload⟩, frag)
  else if f.opcode = OP_CONT then
    if frag.op = 0 then .error ⟨"시작 프레임 없는 continuation"⟩
    else if f.fin then .ok (some ⟨frag.op, frag.data ++ f.payload⟩, ⟨0, []⟩)
    else .ok (none, ⟨frag.op, frag.data ++ f.payload⟩)
  else if f.fin then .ok (some ⟨f.opcode, f.payload⟩, frag)
  else .ok (none, ⟨f.opcode, f.payload⟩)

structure FrameDecoder where
  buf : Bytes
  expectMasked : Bool
  frag : Frag
  deriving DecidableEq

def FrameDecoder.init (expectMasked : Bool) : FrameDecoder := ⟨[], expectMasked, ⟨0, []⟩⟩

/-- The messages, the exception that ended the generator if one did, and the decoder after it. -/
structure Fed where
  messages : List Message
  error : Option WSError
  decoder : FrameDecoder
  deriving DecidableEq

theorem parse_item {expectMasked : Bool} {buf : Bytes} {f : Frame} {n : ℕ} (h : parse expectMasked buf = .item f n) :
    2 ≤ n ∧ n ≤ buf.length := by
  have hoff : ∀ {length off}, lengthAt buf = some (length, off) → 2 ≤ off := by
    intro length off hl
    unfold lengthAt at hl
    grind
  unfold parse at h
  split at h
  · cases h
  · rename_i length off hl
    have := hoff hl
    grind

/-- The loop of `feed`. -/
def FrameDecoder.loop (d : FrameDecoder) : Fed :=
  match _h : parse d.expectMasked d.buf with
  | .wait => ⟨[], none, d⟩
  | .raise e => ⟨[], some e, d⟩
  | .item f n =>
    match handle d.frag f with
    | .error e => ⟨[], some e, { d with buf := d.buf.drop n }⟩
    | .ok (out, frag) =>
      let fed := FrameDecoder.loop { d with buf := d.buf.drop n, frag := frag }
      { fed with messages := out.toList ++ fed.messages }
termination_by d.buf.length
decreasing_by
  have := parse_item _h
  simp only [List.length_drop]
  omega

def FrameDecoder.feed (d : FrameDecoder) (data : Bytes) : Fed := FrameDecoder.loop { d with buf := d.buf ++ data }

def FrameDecoder.feedAll (d : FrameDecoder) : List Bytes → Fed
  | [] => ⟨[], none, d⟩
  | data :: chunks =>
    let fed := d.feed data
    if fed.error.isSome then fed
    else
      let later := fed.decoder.feedAll chunks
      { later with messages := fed.messages ++ later.messages }

end Ws

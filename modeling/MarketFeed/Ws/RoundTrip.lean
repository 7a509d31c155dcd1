import MarketFeed.Ws.Decoder
/-!
# What was encoded is decoded (src/mdfeed/wsproto.py:45-148)

A sender writes control frames and data messages; a message may be cut into fragments, with control frames
between them. Every frame has its length in one of three encodings and, from a client, a key of its own.
`messages_arrive`: a decoder that expects this sender hands on the messages as they were completed.

`encode_frame` always sets FIN, so the frames of a message in one piece and the control frames are its
results (`ControlFrame.encoded`, `DataMessage.encoded`); a fragment has FIN on the last one only, and the
opcode on the first.
-/

namespace Ws

open Mdfp (getBe slice slice_append slice_field getBe_putBe)
open Gateway (Bytes putBe putBe_length)

/-! ## One frame -/

def maskBit (mask : Bool) : UInt8 := if mask then 0x80 else 0x00

theorem second_byte : ∀ mask : Bool, ∀ n < 128,
    ((maskBit mask ||| UInt8.ofNat n) &&& 0x7F).toNat = n ∧
      ((maskBit mask ||| UInt8.ofNat n) &&& 0x80 != 0) = mask := by
  decide +kernel

theorem lengthBytes_length (m : UInt8) (n : ℕ) : (lengthBytes m n).length = if n < 126 then 1 else if n < 65536 then
    3 else 9 := by
  unfold lengthBytes
  split
  · rfl
  · split <;> rw [List.length_cons, putBe_length]

theorem lengthAt_short (b0 x : UInt8) (tail : Bytes) {n : ℕ} (hx : (x &&& 0x7F).toNat = n) (hn : n < 126) :
    lengthAt (b0 :: x :: tail) = some (n, 2) := by
  simp [lengthAt, hx, show n ≠ 126 by omega, show n ≠ 127 by omega]

theorem lengthAt_mid (b0 x : UInt8) {field : Bytes} (tail : Bytes) (hx : (x &&& 0x7F).toNat = 126)
    (hlen : field.length = 2) :
    lengthAt (b0 :: x :: (field ++ tail)) = some (getBe field, 4) := by
  have hfield := @slice_field [b0, x] field 2 4 rfl (by rw [hlen]) tail
  simp only [List.cons_append, List.nil_append] at hfield
  simp [lengthAt, hx, hlen, hfield]

theorem lengthAt_long (b0 x : UInt8) {field : Bytes} (tail : Bytes) (hx : (x &&& 0x7F).toNat = 127)
    (hlen : field.length = 8) :
    lengthAt (b0 :: x :: (field ++ tail)) = some (getBe field, 10) := by
  have hfield := @slice_field [b0, x] field 2 10 rfl (by rw [hlen]) tail
  simp only [List.cons_append, List.nil_append] at hfield
  simp [lengthAt, hx, hlen, hfield]

/-- The length field is read as it was written, in each of its forms. -/
theorem lengthAt_write (b0 : UInt8) (mask : Bool) {n : ℕ} (hn : n < 2 ^ 64) (tail : Bytes) :
    lengthAt ([b0] ++ lengthBytes (maskBit mask) n ++ tail) = some (n, 1 + (lengthBytes (maskBit mask) n).length) ∧
    maskedAt ([b0] ++ lengthBytes (maskBit mask) n ++ tail) = mask := by
  rw [lengthBytes_length]
  unfold lengthBytes
  by_cases h1 : n < 126
  · obtain ⟨hlen, hmask⟩ := second_byte mask n (by omega)
    rw [if_pos h1, if_pos h1]
    exact ⟨lengthAt_short b0 _ tail hlen h1, hmask⟩
  by_cases h2 : n < 65536
  · obtain ⟨hlen, hmask⟩ := second_byte mask 126 (by decide)
    have hread := lengthAt_mid b0 (maskBit mask ||| 126) tail hlen (putBe_length 2 n)
    rw [getBe_putBe, Nat.mod_eq_of_lt (by omega)] at hread
    rw [if_neg h1, if_neg h1, if_pos h2, if_pos h2]
    exact ⟨hread, hmask⟩
  · obtain ⟨hlen, hmask⟩ := second_byte mask 127 (by decide)
    have hread := lengthAt_long b0 (maskBit mask ||| 127) tail hlen (putBe_length 8 n)
    rw [getBe_putBe, Nat.mod_eq_of_lt (by omega)] at hread
    rw [if_neg h1, if_neg h1, if_neg h2, if_neg h2]
    exact ⟨hread, hmask⟩

theorem xorKey_length (key payload : Bytes) : (xorKey key payload).length = payload.length := List.length_mapIdx

/-- Masking twice with one key is not masking. -/
theorem xorKey_xorKey (key payload : Bytes) : xorKey key (xorKey key payload) = payload := by
  unfold xorKey
  rw [List.mapIdx_mapIdx]
  simp only [Function.comp_def, UInt8.xor_assoc, UInt8.xor_self, UInt8.xor_zero]
  exact List.ext_getElem (by simp) (by simp)

def firstByte (fin : Bool) (opcode : UInt8) : UInt8 := (if fin then 0x80 else 0x00) ||| opcode

/-- A frame is parsed as it was encoded, and nothing of what follows it. -/
theorem parse_frameBytes (fin : Bool) (opcode : UInt8) {payload : Bytes} (h : payload.length ≤ MAX_FRAME)
    (mask : Bool) (key : Key) (rest : Bytes) :
    parse mask (frameBytes fin opcode payload mask key ++ rest) =
      .item ⟨firstByte fin opcode, payload⟩ (frameBytes fin opcode payload mask key).length := by
  have hmax : ¬ MAX_FRAME < payload.length := Nat.not_lt.2 h
  have hpow : payload.length < 2 ^ 64 := Nat.lt_of_le_of_lt h (by decide)
  obtain ⟨hlen, hmask⟩ := lengthAt_write (firstByte fin opcode) mask hpow
    ((if mask then key.bytes ++ xorKey key.bytes payload else payload) ++ rest)
  have hbytes : frameBytes fin opcode payload mask key ++ rest = [firstByte fin opcode] ++ lengthBytes (maskBit mask)
      payload.length ++
      ((if mask then key.bytes ++ xorKey key.bytes payload else payload) ++ rest) := by
    simp only [frameBytes, firstByte, maskBit, List.append_assoc]
  have hb0 : ([firstByte fin opcode] ++ lengthBytes (maskBit mask) payload.length ++
      ((if mask then key.bytes ++ xorKey key.bytes payload else payload) ++ rest)).getD 0 0 = firstByte fin
        opcode := rfl
  rw [hbytes, parse]
  simp only [hlen, hmask, hb0, if_neg hmax, ne_eq, not_true_eq_false, if_false]
  have hhead : ([firstByte fin opcode] ++ lengthBytes (maskBit mask) payload.length).length = 1 +
      (lengthBytes (maskBit mask) payload.length).length := by
    rw [List.length_append, List.length_singleton]
  have hsize : (frameBytes fin opcode payload mask key).length =
      1 + (lengthBytes (maskBit mask) payload.length).length + (if mask then 4 else 0) + payload.length := by
    cases mask <;> simp [frameBytes, maskBit, key.four, xorKey_length] <;> omega
  cases mask with
  | false =>
    have hfield := slice_field hhead rfl rest (b := payload)
    simp only [Bool.false_eq_true, if_false] at hsize ⊢
    rw [← List.append_assoc, hfield, if_neg (by simp only [List.length_append, hhead]; omega), hsize]
    rfl
  | true =>
    generalize [firstByte fin opcode] ++ lengthBytes (maskBit true) payload.length = head at hhead ⊢
    have hkey := slice_field hhead (by rw [key.four]) (xorKey key.bytes payload ++ rest) (b := key.bytes)
    have hdata := @slice_field (head ++ key.bytes)
      (xorKey key.bytes payload) _ _ (by rw [List.length_append, hhead, key.four])
      (by rw [xorKey_length]) rest
    simp only [if_true, List.append_assoc] at hsize hkey hdata ⊢
    rw [hkey, hdata, xorKey_xorKey, if_neg (by simp only [List.length_append, hhead, key.four]; omega),
      if_neg (by simp only [List.length_append, hhead, key.four, xorKey_length]; omega), hsize]

/-! ## A sender -/

/-- A frame as it is written; the key counts for a masked one. -/
structure Sent where
  fin : Bool
  opcode : UInt8
  payload : Bytes
  key : Key
  fits : payload.length ≤ MAX_FRAME

def Sent.bytes (mask : Bool) (s : Sent) : Bytes := frameBytes s.fin s.opcode s.payload mask s.key

def Sent.event (s : Sent) : Event := .frame ⟨firstByte s.fin s.opcode, s.payload⟩

theorem look_bytes (mask : Bool) (s : Sent) (rest : Bytes) :
    (reader mask).look (s.bytes mask ++ rest) = some (some s.event, (s.bytes mask).length) := by
  change look mask _ = _
  rw [look, Sent.bytes, parse_frameBytes s.fin s.opcode s.fits mask s.key rest]
  rfl

/-- The stream of several frames is cut into them again. -/
theorem frames_bytes (mask : Bool) (sent : List Sent) :
    frames mask (sent.flatMap (Sent.bytes mask)) = sent.map Sent.event := by
  induction sent with
  | nil => rw [frames, List.flatMap_nil, Scan.read_wait _ (by cases mask <;> rfl), List.map_nil]
  | cons s sent ih =>
    rw [List.flatMap_cons, frames, Scan.read_take _ (look_bytes mask s _), List.drop_left, List.map_cons, ← ih]
    rfl

structure ControlFrame where
  opcode : UInt8
  payload : Bytes
  key : Key
  control : opcode ∈ CONTROL_OPS
  short : payload.length ≤ 125

def ControlFrame.sent (c : ControlFrame) : Sent :=
  ⟨true, c.opcode, c.payload, c.key, Nat.le_trans c.short (by decide)⟩

def ControlFrame.message (c : ControlFrame) : Message := ⟨c.opcode, c.payload⟩

structure Fragment where
  payload : Bytes
  key : Key
  fits : payload.length ≤ MAX_FRAME

/-- A text or binary message: its first fragment, and each later one with the control frames before it. -/
structure DataMessage where
  opcode : UInt8
  first : Fragment
  rest : List (List ControlFrame × Fragment)
  data : opcode = OP_TEXT ∨ opcode = OP_BINARY

/-- The later fragments; the last one has FIN. -/
def continuations : List (List ControlFrame × Fragment) → List Sent
  | [] => []
  | (controls, f) :: rest =>
    controls.map ControlFrame.sent ++ ⟨rest.isEmpty, OP_CONT, f.payload, f.key, f.fits⟩ :: continuations rest

def DataMessage.sent (m : DataMessage) : List Sent :=
  ⟨m.rest.isEmpty, m.opcode, m.first.payload, m.first.key, m.first.fits⟩ :: continuations m.rest

def DataMessage.payload (m : DataMessage) : Bytes := m.first.payload ++ m.rest.flatMap fun part => part.2.payload

inductive Item
  | control (c : ControlFrame)
  | data (m : DataMessage)

def Item.sent : Item → List Sent
  | .control c => [c.sent]
  | .data m => m.sent

/-- The messages of an item in the order they are completed. -/
def Item.messages : Item → List Message
  | .control c => [c.message]
  | .data m => (m.rest.flatMap fun part => part.1.map ControlFrame.message) ++ [⟨m.opcode, m.payload⟩]

/-- The bytes that are sent. -/
def bytes (mask : Bool) (items : List Item) : Bytes := (items.flatMap Item.sent).flatMap (Sent.bytes mask)

/-- A control frame is what `encode_frame` returns. -/
theorem ControlFrame.encoded (c : ControlFrame) (mask : Bool) :
    encodeFrame c.opcode c.payload mask c.key = .ok (bytes mask [.control c]) := by
  rw [encodeFrame, if_neg fun h => absurd h.2 (Nat.not_lt.2 c.short)]
  simp [bytes, Item.sent, Sent.bytes, ControlFrame.sent]

/-- So is a message in one piece. -/
theorem DataMessage.encoded (m : DataMessage) (h : m.rest = []) (mask : Bool) :
    encodeFrame m.opcode m.payload mask m.first.key = .ok (bytes mask [.data m]) := by
  have hdata : m.opcode ∉ CONTROL_OPS := by
    rcases m.data with h | h <;> rw [h] <;> decide
  rw [encodeFrame, if_neg fun h => hdata h.1]
  simp [bytes, Item.sent, Sent.bytes, DataMessage.sent, DataMessage.payload, h, continuations]

/-! ## The decoder reads what was sent -/

theorem control_bits : ∀ op ∈ CONTROL_OPS, firstByte true op &&& 0x0F = op := by decide +kernel

theorem data_bits : ∀ fin : Bool, ∀ op ∈ [OP_CONT, OP_TEXT, OP_BINARY], firstByte fin op &&& 0x0F = op ∧
    (firstByte fin op &&& 0x80 != 0) = fin := by
  decide +kernel

theorem handle_control (frag : Frag) (c : ControlFrame) :
    handle frag ⟨firstByte true c.opcode, c.payload⟩ = .ok (some c.message, frag) := by
  have hop : Frame.opcode ⟨firstByte true c.opcode, c.payload⟩ = c.opcode := control_bits c.opcode c.control
  simp [handle, hop, c.control, ControlFrame.message]

theorem decode_controls (frag : Frag) (controls : List ControlFrame) (later : List Event) :
    decode frag ((controls.map ControlFrame.sent).map Sent.event ++ later) = (decode frag later).after
      (controls.map ControlFrame.message) := by
  induction controls with
  | nil => rfl
  | cons c controls ih =>
    simp only [List.map_cons, List.cons_append]
    rw [Sent.event, ControlFrame.sent, decode_frame_ok (handle_control frag c), ih]
    rfl

/-- The rest of an open message: the control frames come out at once, the message at its last fragment. -/
theorem decode_continuations {frag : Frag} (hop : frag.op ≠ 0) {rest : List (List ControlFrame × Fragment)}
    (hne : rest ≠ []) (later : List Event) :
    decode frag ((continuations rest).map Sent.event ++ later) =
      (decode ⟨0, []⟩ later).after ((rest.flatMap fun part => part.1.map ControlFrame.message) ++
        [⟨frag.op, frag.data ++ rest.flatMap fun part => part.2.payload⟩]) := by
  induction rest generalizing frag with
  | nil => exact absurd rfl hne
  | cons part rest ih =>
    obtain ⟨controls, f⟩ := part
    obtain ⟨hcode, hfin⟩ := data_bits rest.isEmpty OP_CONT (by decide)
    have hopcode : Frame.opcode ⟨firstByte rest.isEmpty OP_CONT, f.payload⟩ = OP_CONT := hcode
    have hfin' : Frame.fin ⟨firstByte rest.isEmpty OP_CONT, f.payload⟩ = rest.isEmpty := hfin
    simp only [continuations, List.map_append, List.map_cons, List.append_assoc, List.cons_append]
    rw [decode_controls, Sent.event]
    cases hrest : rest with
    | nil =>
      have hhandle : handle frag ⟨firstByte true OP_CONT, f.payload⟩ = .ok (some ⟨frag.op, frag.data ++ f.payload⟩,
          ⟨0, []⟩) := by
        rw [hrest] at hopcode hfin'
        simp only [List.isEmpty_nil] at hopcode hfin'
        simp [handle, hopcode, hfin', hop]
      simp only [List.isEmpty_nil]
      rw [decode_frame_ok hhandle]
      simp [continuations, Decoded.after]
    | cons part' rest' =>
      have hhandle : handle frag ⟨firstByte false OP_CONT, f.payload⟩ =
          .ok (none, ⟨frag.op, frag.data ++ f.payload⟩) := by
        rw [hrest] at hopcode hfin'
        simp only [List.isEmpty_cons] at hopcode hfin'
        simp [handle, hopcode, hfin', hop]
      simp only [List.isEmpty_cons]
      have hop' : (⟨frag.op, frag.data ++ f.payload⟩ : Frag).op ≠ 0 := hop
      rw [decode_frame_ok hhandle, ← hrest, ih hop' (by simp [hrest])]
      simp [Decoded.after]

theorem decode_item (item : Item) (later : List Event) :
    decode ⟨0, []⟩ (item.sent.map Sent.event ++ later) = (decode ⟨0, []⟩ later).after item.messages := by
  cases item with
  | control c => exact decode_controls ⟨0, []⟩ [c] later
  | data m =>
    have hmem : m.opcode ∈ [OP_CONT, OP_TEXT, OP_BINARY] := by
      rcases m.data with h | h <;> rw [h] <;> decide
    obtain ⟨hcode, hfin⟩ := data_bits m.rest.isEmpty m.opcode hmem
    have hopcode : Frame.opcode ⟨firstByte m.rest.isEmpty m.opcode, m.first.payload⟩ = m.opcode := hcode
    have hfin' : Frame.fin ⟨firstByte m.rest.isEmpty m.opcode, m.first.payload⟩ = m.rest.isEmpty := hfin
    have hne : m.opcode ∉ CONTROL_OPS ∧ m.opcode ≠ OP_CONT ∧ m.opcode ≠ 0 := by
      rcases m.data with h | h <;> rw [h] <;> decide
    simp only [Item.sent, DataMessage.sent, List.map_cons, List.cons_append, Item.messages, DataMessage.payload]
    rw [Sent.event]
    by_cases hrest : m.rest = []
    · have hhandle : handle ⟨0, []⟩ ⟨firstByte m.rest.isEmpty m.opcode, m.first.payload⟩ =
          .ok (some ⟨m.opcode, m.first.payload⟩, ⟨0, []⟩) := by
        simp only [handle, hopcode, hfin']
        simp [hne, hrest]
      rw [decode_frame_ok hhandle, hrest]
      simp [continuations]
    · have hhandle : handle ⟨0, []⟩ ⟨firstByte m.rest.isEmpty m.opcode, m.first.payload⟩ =
          .ok (none, ⟨m.opcode, m.first.payload⟩) := by
        simp [handle, hopcode, hfin', hne, hrest]
      rw [decode_frame_ok hhandle, decode_continuations hne.2.2 hrest]
      rfl

theorem decode_items (items : List Item) :
    decode ⟨0, []⟩ ((items.flatMap Item.sent).map Sent.event) = ⟨items.flatMap Item.messages, none, ⟨0, []⟩⟩ := by
  induction items with
  | nil => rfl
  | cons item items ih =>
    rw [List.flatMap_cons, List.map_append, decode_item, ih]
    rfl

/-- What `encode_frame` returns for an item that is one frame. -/
def Item.Encoded (mask : Bool) (item : Item) : Prop :=
  match item with
  | .control c => encodeFrame c.opcode c.payload mask c.key = .ok (bytes mask [item])
  | .data m => m.rest = [] → encodeFrame m.opcode m.payload mask m.first.key = .ok (bytes mask [item])

theorem Item.encoded (mask : Bool) : ∀ item : Item, item.Encoded mask
  | .control c => c.encoded mask
  | .data m => fun h => m.encoded h mask

/-- **A decoder hands on the messages that were sent, in the order of their completion, however they were cut into
chunks**; the items of one frame were encoded by `encode_frame`. -/
theorem messages_arrive (mask : Bool) (items : List Item) (chunks : List Bytes)
    (h : chunks.flatten = bytes mask items) :
    (∀ item ∈ items, item.Encoded mask) ∧
    ((FrameDecoder.init mask).feedAll chunks).messages = items.flatMap Item.messages ∧
    ((FrameDecoder.init mask).feedAll chunks).error = none := by
  obtain ⟨hm, he⟩ := feedAll_eq _ (init_idle mask) chunks
  change _ = (decode ⟨0, []⟩ (frames mask chunks.flatten)).messages at hm
  change _ = (decode ⟨0, []⟩ (frames mask chunks.flatten)).error at he
  rw [h, bytes, frames_bytes, decode_items] at hm he
  exact ⟨fun item _ => item.encoded mask, hm, he⟩

/-- A client's text in two fragments, with a ping between them. -/
theorem messages_arrive_pinged :
    ((FrameDecoder.init true).feedAll [[0x01, 0x81, 1], [2, 3, 4, 0x49, 0x89, 0x80, 1, 2, 3, 4, 0x80],
      [0x81, 1, 2, 3, 4, 0x68]]).messages =
      [⟨OP_PING, []⟩, ⟨OP_TEXT, [0x48, 0x69]⟩] :=
  (messages_arrive true
    [.data ⟨OP_TEXT, ⟨[0x48], ⟨[1, 2, 3, 4], rfl⟩, by decide⟩,
      [([⟨OP_PING, [], ⟨[1, 2, 3, 4], rfl⟩, by decide, by decide⟩], ⟨[0x69], ⟨[1, 2, 3, 4], rfl⟩, by decide⟩)],
        .inl rfl⟩]
    _ (by decide)).2.1

end Ws

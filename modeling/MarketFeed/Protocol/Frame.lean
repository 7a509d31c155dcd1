import MarketFeed.Protocol.Crc
import Mathlib.Algebra.Group.Nat.Defs
/-!
# An MDFP/1 frame (src/mdfeed/protocol.py:13-82)

| here | there |
|---|---|
| `encode` | `encode` |
| `slice b i j` | `b[i:j]` |
| `getBe`, `putBe` | `struct.unpack`, `struct.pack` of an unsigned number, `!` |
| `header` | `struct.unpack(HEADER_FMT, buf[:HEADER_SIZE])` |

Field widths are the types' (`struct.pack` raises on a number that does not fit).
-/

namespace Mdfp

open Gateway (Bytes putBe putBe_length)

def MAGIC : Bytes := [77, 68, 70, 49]

def VERSION : UInt8 := 1

def HEADER_SIZE : ℕ := 20

def CRC_SIZE : ℕ := 4

def MAX_PAYLOAD : ℕ := 1048576

/-- The most a frame takes. -/
def MAX_FRAME : ℕ := HEADER_SIZE + MAX_PAYLOAD + CRC_SIZE

structure ProtocolError where
  message : String
  deriving DecidableEq

structure Frame where
  msgType : UInt8
  seq : UInt64
  flags : UInt16
  payload : Bytes
  deriving DecidableEq

def encode (msgType : UInt8) (seq : UInt64) (payload : Bytes) (flags : UInt16) : Except ProtocolError Bytes :=
  if MAX_PAYLOAD < payload.length then .error ⟨s!"payload too large: {payload.length}"⟩
  else
    let header := MAGIC ++ [VERSION, msgType] ++ putBe 2 flags.toNat ++ putBe 8 seq.toNat ++ putBe 4 payload.length
    let body := header ++ payload
    .ok (body ++ putBe 4 (crc32 body).toNat)

/-! ## Reading fields -/

def slice (b : Bytes) (i j : ℕ) : Bytes := (b.drop i).take (j - i)

def getBe (b : Bytes) : ℕ := b.foldl (fun v x => v * 256 + x.toNat) 0

structure Header where
  ver : UInt8
  msgType : UInt8
  flags : UInt16
  seq : UInt64
  length : ℕ
  deriving DecidableEq

def header (b : Bytes) : Header where
  ver := UInt8.ofNat (getBe (slice b 4 5))
  msgType := UInt8.ofNat (getBe (slice b 5 6))
  flags := UInt16.ofNat (getBe (slice b 6 8))
  seq := UInt64.ofNat (getBe (slice b 8 16))
  length := getBe (slice b 16 20)

theorem slice_append {b : Bytes} {j : ℕ} (h : j ≤ b.length) (i : ℕ) (c : Bytes) : slice (b ++ c) i j = slice b i j := by
  unfold slice
  by_cases hi : i ≤ b.length
  · rw [List.drop_append_of_le_length hi, List.take_append_of_le_length]
    rw [List.length_drop]
    omega
  · rw [show j - i = 0 by omega, List.take_zero, List.take_zero]

theorem slice_drop (b : Bytes) (k i j : ℕ) : slice (b.drop k) i j = slice b (k + i) (k + j) := by
  unfold slice
  rw [List.drop_drop, show k + j - (k + i) = j - i by omega]

theorem slice_length {b : Bytes} {i j : ℕ} (h : j ≤ b.length) : (slice b i j).length = j - i := by
  rw [slice, List.length_take, List.length_drop]
  omega

/-- A field between what stands before it and what follows. -/
theorem slice_field {a b : Bytes} {i j : ℕ} (hi : a.length = i) (hj : i + b.length = j) (c : Bytes) :
    slice (a ++ b ++ c) i j = b := by
  subst hi hj
  rw [slice, List.append_assoc, List.drop_left, Nat.add_sub_cancel_left, List.take_left]

theorem header_append {b : Bytes} (h : HEADER_SIZE ≤ b.length) (c : Bytes) : header (b ++ c) = header b := by
  have hs (i j : ℕ) (hj : j ≤ 20) : slice (b ++ c) i j = slice b i j := slice_append (Nat.le_trans hj h) i c
  simp only [header, hs 4 5 (by decide), hs 5 6 (by decide), hs 6 8 (by decide), hs 8 16 (by decide),
    hs 16 20 (by decide)]

theorem getBe_concat (b : Bytes) (x : UInt8) : getBe (b ++ [x]) = getBe b * 256 + x.toNat := by
  rw [getBe, List.foldl_append]
  rfl

theorem getBe_putBe (n v : ℕ) : getBe (putBe n v) = v % 256 ^ n := by
  induction n generalizing v with
  | zero => exact (Nat.mod_one v).symm
  | succ n ih =>
    have hmod : v % 256 ^ (n + 1) = v % 256 + 256 * (v / 256 % 256 ^ n) := by
      rw [Nat.pow_succ, Nat.mul_comm (256 ^ n), Nat.mod_mul]
    have hlast : (UInt8.ofNat v).toNat = v % 256 := UInt8.toNat_ofNat'
    rw [putBe, getBe_concat, ih, hlast, hmod]
    omega

theorem getBe_single (x : UInt8) : getBe [x] = x.toNat := by
  simp [getBe]

/-! ## What `encode` writes is read back -/

namespace Frame

variable (f : Frame)

/-- What the checksum covers. -/
def body : Bytes := MAGIC ++ [VERSION, f.msgType] ++ putBe 2 f.flags.toNat ++ putBe 8 f.seq.toNat ++
    putBe 4 f.payload.length ++ f.payload

def bytes : Bytes := f.body ++ putBe 4 (crc32 f.body).toNat

theorem encode_ok {f : Frame} (h : f.payload.length ≤ MAX_PAYLOAD) :
    encode f.msgType f.seq f.payload f.flags = .ok f.bytes :=
  if_neg (Nat.not_lt.2 h)

theorem body_length : f.body.length = HEADER_SIZE + f.payload.length := by
  simp only [body, List.length_append, putBe_length, MAGIC, HEADER_SIZE, List.length_cons, List.length_nil]

theorem bytes_length : f.bytes.length = HEADER_SIZE + f.payload.length + CRC_SIZE := by
  rw [bytes, List.length_append, body_length, putBe_length, CRC_SIZE]

theorem magic_body (rest : Bytes) : slice (f.body ++ rest) 0 4 = MAGIC := rfl

theorem header_body {f : Frame} (h : f.payload.length ≤ MAX_PAYLOAD) (rest : Bytes) :
    header (f.body ++ rest) = ⟨VERSION, f.msgType, f.flags, f.seq, f.payload.length⟩ := by
  have hver : slice (f.body ++ rest) 4 5 = [VERSION] := rfl
  have htype : slice (f.body ++ rest) 5 6 = [f.msgType] := rfl
  have hflags : slice (f.body ++ rest) 6 8 = putBe 2 f.flags.toNat := by
    have := @slice_field (MAGIC ++ [VERSION, f.msgType]) (putBe 2 f.flags.toNat) 6 8 rfl (by rw [putBe_length])
      (putBe 8 f.seq.toNat ++ putBe 4 f.payload.length ++ f.payload ++ rest)
    rwa [show MAGIC ++ [VERSION, f.msgType] ++ putBe 2 f.flags.toNat ++
      (putBe 8 f.seq.toNat ++ putBe 4 f.payload.length ++ f.payload ++ rest) =
      f.body ++ rest by simp only [body, List.append_assoc]] at this
  have hseq : slice (f.body ++ rest) 8 16 = putBe 8 f.seq.toNat := by
    have := @slice_field (MAGIC ++ [VERSION, f.msgType] ++ putBe 2 f.flags.toNat) (putBe 8 f.seq.toNat) 8 16
      (by rw [List.length_append, putBe_length]; rfl) (by rw [putBe_length])
      (putBe 4 f.payload.length ++ f.payload ++ rest)
    rwa [show MAGIC ++ [VERSION, f.msgType] ++ putBe 2 f.flags.toNat ++ putBe 8 f.seq.toNat ++
      (putBe 4 f.payload.length ++ f.payload ++ rest) =
      f.body ++ rest by simp only [body, List.append_assoc]] at this
  have hlength : slice (f.body ++ rest) 16 20 = putBe 4 f.payload.length := by
    have := @slice_field (MAGIC ++ [VERSION, f.msgType] ++ putBe 2 f.flags.toNat ++ putBe 8 f.seq.toNat)
      (putBe 4 f.payload.length) 16 20
      (by rw [List.length_append, List.length_append, putBe_length, putBe_length]; rfl) (by rw [putBe_length])
      (f.payload ++ rest)
    rwa [show MAGIC ++ [VERSION, f.msgType] ++ putBe 2 f.flags.toNat ++ putBe 8 f.seq.toNat ++
      putBe 4 f.payload.length ++ (f.payload ++ rest) =
      f.body ++ rest by simp only [body, List.append_assoc]] at this
  have hfits : f.payload.length % 256 ^ 4 = f.payload.length := Nat.mod_eq_of_lt (Nat.lt_of_le_of_lt h (by decide))
  have hflags' : f.flags.toNat % 256 ^ 2 = f.flags.toNat := Nat.mod_eq_of_lt f.flags.toNat_lt
  have hseq' : f.seq.toNat % 256 ^ 8 = f.seq.toNat := Nat.mod_eq_of_lt f.seq.toNat_lt
  simp only [header, hver, htype, hflags, hseq, hlength, getBe_single, getBe_putBe, hfits, hflags', hseq',
    UInt8.ofNat_toNat, UInt16.ofNat_toNat,
    UInt64.ofNat_toNat]

theorem slice_body (rest : Bytes) : slice (f.bytes ++ rest) 0 (HEADER_SIZE + f.payload.length) = f.body := by
  have := @slice_field [] f.body 0 (HEADER_SIZE + f.payload.length) rfl (by rw [body_length, Nat.zero_add])
    (putBe 4 (crc32 f.body).toNat ++ rest)
  rwa [List.nil_append, ← List.append_assoc] at this

theorem slice_crc (rest : Bytes) :
    getBe (slice (f.bytes ++ rest) (HEADER_SIZE + f.payload.length) (HEADER_SIZE + f.payload.length + CRC_SIZE)) =
      (crc32 f.body).toNat := by
  rw [bytes, slice_field f.body_length (by rw [putBe_length, CRC_SIZE]), getBe_putBe]
  exact Nat.mod_eq_of_lt (crc32 f.body).toNat_lt

theorem drop_body : f.body.drop HEADER_SIZE = f.payload := by
  rw [body, List.drop_left' (by simp only [List.length_append, putBe_length, MAGIC, HEADER_SIZE, List.length_cons,
    List.length_nil])]

end Frame

end Mdfp

import Mathlib.Data.List.Basic
import Mathlib.Data.Nat.Notation
/-!
# A frame in bytes (cpp/include/mdfp/protocol.hpp:25-85, crc32.hpp)

Header, payload, checksum. A payload over `MAX_PAYLOAD` is not encoded: `encode_into` throws, and callers
are asked to look first.
-/

namespace Gateway

abbrev Bytes := List UInt8

def MAGIC : Bytes := [77, 68, 70, 49]

def VERSION : UInt8 := 1

def MAX_PAYLOAD : ℕ := 1048576

def MSG_SNAPSHOT : ℕ := 5

def MSG_ACK : ℕ := 7

def FLAG_SNAPSHOT : ℕ := 1

/-- `put_be16`, `put_be32`, `put_be64`: the low `n` bytes, high byte first. -/
def putBe : ℕ → ℕ → Bytes
  | 0, _ => []
  | n + 1, v => putBe n (v / 256) ++ [UInt8.ofNat v]

/-! ## The checksum -/

/-- One round of `make_crc_tables`. -/
def crcRound (c : UInt32) : UInt32 := if c &&& 1 = 1 then (0xEDB88320 : UInt32) ^^^ (c >>> 1) else c >>> 1

/-- `CRC_TABLES[s][i]`. -/
def crcTable : ℕ → UInt32 → UInt32
  | 0, i => crcRound (crcRound (crcRound (crcRound (crcRound (crcRound (crcRound (crcRound i)))))))
  | s + 1, i => (crcTable s i >>> 8) ^^^ crcTable 0 (crcTable s i &&& 0xFF)

def loadLe32 (a b c d : UInt8) : UInt32 :=
  a.toUInt32 ||| (b.toUInt32 <<< 8) ||| (c.toUInt32 <<< 16) ||| (d.toUInt32 <<< 24)

/-- The loops of `crc32`: eight bytes at a time, then one. -/
def crcLoop : UInt32 → Bytes → UInt32
  | crc, p0 :: p1 :: p2 :: p3 :: p4 :: p5 :: p6 :: p7 :: rest =>
    let one := crc ^^^ loadLe32 p0 p1 p2 p3
    let two := loadLe32 p4 p5 p6 p7
    crcLoop (crcTable 7 (one &&& 0xFF) ^^^ crcTable 6 ((one >>> 8) &&& 0xFF) ^^^ crcTable 5 ((one >>> 16) &&& 0xFF)
      ^^^ crcTable 4 (one >>> 24) ^^^
      crcTable 3 (two &&& 0xFF) ^^^ crcTable 2 ((two >>> 8) &&& 0xFF) ^^^ crcTable 1 ((two >>> 16) &&& 0xFF) ^^^
        crcTable 0 (two >>> 24)) rest
  | crc, p :: rest => crcLoop (crcTable 0 ((crc ^^^ p.toUInt32) &&& 0xFF) ^^^ (crc >>> 8)) rest
  | crc, [] => crc

def crc32 (p : Bytes) : UInt32 := ~~~crcLoop (~~~0) p

/-! ## The frame -/

structure Msg where
  msgType : ℕ
  payload : Bytes
  flags : ℕ
  deriving DecidableEq

/-- What `encode_into` appends. -/
def encode (seq : ℕ) (m : Msg) : Bytes :=
  let body := MAGIC ++ [VERSION, UInt8.ofNat m.msgType] ++ putBe 2 m.flags ++ putBe 8 seq ++
    putBe 4 m.payload.length ++ m.payload
  body ++ putBe 4 (crc32 body).toNat

theorem putBe_length (n v : ℕ) : (putBe n v).length = n := by
  induction n generalizing v with
  | zero => rfl
  | succ n ih => rw [putBe, List.length_append, ih, List.length_singleton]

/-- `HEADER_SIZE + n + CRC_SIZE`. -/
theorem encode_length (seq : ℕ) (m : Msg) : (encode seq m).length = 20 + m.payload.length + 4 := by
  simp only [encode, List.length_append, putBe_length, MAGIC, List.length_cons, List.length_nil]

/-- The check value of CRC-32, over `123456789`. -/
example : crc32 [49, 50, 51, 52, 53, 54, 55, 56, 57] = 0xCBF43926 := by decide +kernel

end Gateway

import MarketFeed.Gateway.Wire
import Mathlib.Logic.Function.Iterate
/-!
# The checksum of both parsers (src/mdfeed/protocol.py:23, cpp/include/mdfp/crc32.hpp)

`zlib.crc32` is CRC-32: the polynomial's eight rounds for each byte, low bit first. The C++ side takes
eight bytes at a time through tables. A round is linear in the bits (`crcRound_xor`), so a table entry is
the rounds of its index and the loop computes the same checksum (`crc32_eq`), from any initial value and in
any pieces (`crc32_sliced`).
-/

namespace Mdfp

open Gateway (Bytes crcRound crcTable crcLoop loadLe32)

/-- A byte of `zlib.crc32`. -/
def crcByte (crc : UInt32) (b : UInt8) : UInt32 := crcRound^[8] (crc ^^^ b.toUInt32)

/-- `zlib.crc32(data) & 0xFFFFFFFF`. -/
def crc32 (data : Bytes) : UInt32 := ~~~data.foldl crcByte (~~~0)

/-! ## Rounds are linear -/

theorem crcRound_eq (c : UInt32) :
    crcRound c = (bif c.toBitVec.getLsbD 0 then (0xEDB88320 : UInt32) else 0) ^^^ (c >>> 1) := by
  have hbit : c &&& 1 = 1 ↔ c.toBitVec.getLsbD 0 = true := by
    rw [← UInt32.toBitVec_inj, UInt32.toBitVec_and]
    show c.toBitVec &&& 1#32 = 1#32 ↔ _
    rw [BitVec.and_one_eq_setWidth_ofBool_getLsbD]
    cases c.toBitVec.getLsbD 0 <;> decide
  unfold crcRound
  by_cases h : c &&& 1 = 1
  · rw [if_pos h, hbit.1 h, cond_true]
  · rw [if_neg h, Bool.eq_false_iff.2 fun hb => h (hbit.2 hb), cond_false, UInt32.zero_xor]

theorem crcRound_xor (a b : UInt32) : crcRound (a ^^^ b) = crcRound a ^^^ crcRound b := by
  have hpoly (s t : Bool) : (bif s ^^ t then (0xEDB88320 : UInt32) else 0) =
      (bif s then (0xEDB88320 : UInt32) else 0) ^^^ (bif t then (0xEDB88320 : UInt32) else 0) := by
    cases s <;> cases t <;> rfl
  rw [crcRound_eq, crcRound_eq a, crcRound_eq b, UInt32.toBitVec_xor, BitVec.getLsbD_xor, hpoly, UInt32.shiftRight_xor]
  ac_rfl

theorem rounds_xor (n : ℕ) (a b : UInt32) : crcRound^[n] (a ^^^ b) = crcRound^[n] a ^^^ crcRound^[n] b := by
  induction n generalizing a b with
  | zero => rfl
  | succ n ih => rw [Function.iterate_succ_apply, crcRound_xor, ih, Function.iterate_succ_apply,
      Function.iterate_succ_apply]

/-- While the low bits are clear the polynomial stays out. -/
theorem rounds_shift (c : UInt32) (n : ℕ) (h : ∀ i < n, c.toBitVec.getLsbD i = false) :
    (crcRound^[n] c).toBitVec = c.toBitVec >>> n := by
  induction n with
  | zero => rfl
  | succ n ih =>
    have hn := ih fun i hi => h i (Nat.lt_succ_of_lt hi)
    have hlow : (crcRound^[n] c).toBitVec.getLsbD 0 = false := by
      rw [hn, BitVec.getLsbD_ushiftRight]
      exact h n (Nat.lt_succ_self n)
    rw [Function.iterate_succ_apply', crcRound_eq, hlow, cond_false, UInt32.zero_xor, BitVec.shiftRight_add, ← hn]
    rfl

theorem getLsbD_high (x : UInt32) (i : ℕ) :
    (x &&& 0xFFFFFF00).toBitVec.getLsbD i = (x.toBitVec.getLsbD i && decide (8 ≤ i)) := by
  have hmask : ∀ i < 32, (0xFFFFFF00#32).getLsbD i = decide (8 ≤ i) := by decide
  rw [UInt32.toBitVec_and, BitVec.getLsbD_and]
  by_cases hi : i < 32
  · exact congrArg _ (hmask i hi)
  · rw [BitVec.getLsbD_of_ge x.toBitVec i (by omega), Bool.false_and, Bool.false_and]

theorem rounds_high (x : UInt32) : crcRound^[8] (x &&& 0xFFFFFF00) = x >>> 8 := by
  rw [← UInt32.toBitVec_inj, rounds_shift]
  · apply BitVec.eq_of_getLsbD_eq
    intro i hi
    rw [BitVec.getLsbD_ushiftRight, getLsbD_high]
    simp
  · intro i hi
    rw [getLsbD_high, decide_eq_false (by omega), Bool.and_false]

theorem crcTable_zero (i : UInt32) : crcTable 0 i = crcRound^[8] i := by
  rw [crcTable]
  rfl

/-- The low byte through the table, the others moved down. -/
theorem rounds_byte (x : UInt32) : crcRound^[8] x = crcTable 0 (x &&& 0xFF) ^^^ (x >>> 8) := by
  have hsplit : x = (x &&& 0xFF) ^^^ (x &&& 0xFFFFFF00) := by
    rw [← UInt32.toBitVec_inj]
    apply BitVec.eq_of_getLsbD_eq
    intro i hi
    have hlow : ∀ i < 32, (0xFF#32).getLsbD i = decide (i < 8) := by decide
    have hbyte : (x &&& 0xFF).toBitVec.getLsbD i = (x.toBitVec.getLsbD i && decide (i < 8)) := by
      rw [UInt32.toBitVec_and, BitVec.getLsbD_and]
      exact congrArg _ (hlow i hi)
    rw [UInt32.toBitVec_xor, BitVec.getLsbD_xor, hbyte, getLsbD_high]
    by_cases h8 : i < 8
    · simp [h8, Nat.not_le.2 h8]
    · simp [h8, Nat.not_lt.1 h8]
  conv => lhs; rw [hsplit]
  rw [rounds_xor, rounds_high, crcTable_zero]

/-! ## Eight bytes at a time -/

/-- `T[s][i]`: the rounds of an index, `s` zero bytes later. -/
theorem crcTable_eq (s : ℕ) (i : UInt32) : crcTable s i = crcRound^[8 * (s + 1)] i := by
  induction s with
  | zero => exact crcTable_zero i
  | succ s ih => rw [crcTable, UInt32.xor_comm, ← rounds_byte, ih, ← Function.iterate_add_apply,
      show 8 + 8 * (s + 1) = 8 * (s + 1 + 1) by omega]

/-- A word is its low byte's table entry and the rounds of the rest. -/
theorem rounds_succ (s : ℕ) (x : UInt32) :
    crcRound^[8 * (s + 1)] x = crcTable s (x &&& 0xFF) ^^^ crcRound^[8 * s] (x >>> 8) := by
  rw [show 8 * (s + 1) = 8 * s + 8 by omega, Function.iterate_add_apply, rounds_byte, rounds_xor, crcTable_eq,
    crcTable_eq,
    ← Function.iterate_add_apply, show 8 * s + 8 * (0 + 1) = 8 * (s + 1) by omega]

/-- The four tables of a word. -/
theorem rounds_word (s : ℕ) (x : UInt32) :
    crcRound^[8 * (s + 4)] x = crcTable (s + 3) (x &&& 0xFF) ^^^ crcTable (s + 2) ((x >>> 8) &&& 0xFF) ^^^
    crcTable (s + 1) ((x >>> 16) &&& 0xFF) ^^^ crcTable s (x >>> 24) := by
  have h16 : (x >>> 8) >>> 8 = x >>> 16 := by
    rw [← UInt32.toBitVec_inj]
    exact (BitVec.shiftRight_add x.toBitVec 8 8).symm
  have h24 : (x >>> 16) >>> 8 = x >>> 24 := by
    rw [← UInt32.toBitVec_inj]
    exact (BitVec.shiftRight_add x.toBitVec 16 8).symm
  rw [rounds_succ (s + 3), rounds_succ (s + 2), rounds_succ (s + 1), h16, h24, crcTable_eq s]
  ac_rfl

theorem loadLe32_eq (a b c d : UInt8) :
    loadLe32 a b c d = a.toUInt32 ^^^ (b.toUInt32 <<< 8) ^^^ (c.toUInt32 <<< 16) ^^^ (d.toUInt32 <<< 24) := by
  rw [loadLe32, ← UInt32.toBitVec_inj]
  apply BitVec.eq_of_getLsbD_eq
  intro i hi
  have ha : 8 ≤ i → a.toBitVec.getLsbD i = false := BitVec.getLsbD_of_ge _ i
  have hb : 16 ≤ i → b.toBitVec.getLsbD (i - 8) = false := fun h => BitVec.getLsbD_of_ge _ _ (by omega)
  have hc : 24 ≤ i → c.toBitVec.getLsbD (i - 16) = false := fun h => BitVec.getLsbD_of_ge _ _ (by omega)
  simp
  by_cases h8 : i < 8
  · simp [h8, show i < 16 by omega, show i < 24 by omega]
  · by_cases h16 : i < 16
    · simp [h8, h16, show i < 24 by omega, ha (by omega)]
    · by_cases h24 : i < 24
      · simp [h8, h16, h24, ha (by omega), hb (by omega)]
      · simp [h8, h16, h24, ha (by omega), hb (by omega), hc (by omega)]

theorem rounds_shiftLeft (b : UInt8) (m k : UInt32) (hlow : ∀ i < 8, (b.toUInt32 <<< m).toBitVec.getLsbD i = false)
    (hshift : (b.toUInt32 <<< m).toBitVec >>> 8 = (b.toUInt32 <<< k).toBitVec) :
    crcRound^[8] (b.toUInt32 <<< m) = b.toUInt32 <<< k := by
  rw [← UInt32.toBitVec_inj, rounds_shift _ 8 hlow, hshift]

/-- A byte further up the word comes down one place. -/
theorem rounds_shifted (b : UInt8) : crcRound^[8] (b.toUInt32 <<< 8) = b.toUInt32 ∧
    crcRound^[8] (b.toUInt32 <<< 16) = b.toUInt32 <<< 8 ∧
    crcRound^[8] (b.toUInt32 <<< 24) = b.toUInt32 <<< 16 := by
  have h0 : b.toUInt32 <<< 0 = b.toUInt32 := by simp
  have hlow (j : ℕ) (hj : 8 ≤ j) : b.toBitVec.getLsbD j = false := BitVec.getLsbD_of_ge _ j hj
  refine ⟨?_, ?_, ?_⟩
  · conv => rhs; rw [← h0]
    apply rounds_shiftLeft
    · intro i hi
      simp
      omega
    · apply BitVec.eq_of_getLsbD_eq
      intro i hi
      by_cases h24 : i < 24
      · simp
        omega
      · simp [hlow i (by omega)]
  · apply rounds_shiftLeft
    · intro i hi
      simp
      omega
    · apply BitVec.eq_of_getLsbD_eq
      intro i hi
      by_cases h24 : i < 24
      · simp [show 8 + i - 16 = i - 8 by omega, show 8 + i < 32 by omega, show 8 + i < 16 ↔ i < 8 by omega, hi]
      · simp [hlow (i - 8) (by omega), show ¬8 + i < 32 by omega]
  · apply rounds_shiftLeft
    · intro i hi
      simp
      omega
    · apply BitVec.eq_of_getLsbD_eq
      intro i hi
      by_cases h24 : i < 24
      · simp [show 8 + i - 24 = i - 16 by omega, show 8 + i < 32 by omega, show 8 + i < 24 ↔ i < 16 by omega, hi]
      · simp [hlow (i - 16) (by omega), show ¬8 + i < 32 by omega]

/-- Four bytes one by one. -/
theorem crcByte_four (crc : UInt32) (a b c d : UInt8) :
    crcByte (crcByte (crcByte (crcByte crc a) b) c) d = crcRound^[32] (crc ^^^ loadLe32 a b c d) := by
  have hsplit (x : UInt32) : crcRound^[32] x = crcRound^[8] (crcRound^[8] (crcRound^[8] (crcRound^[8] x))) := by
    simp only [← Function.iterate_add_apply]
  obtain ⟨hb, -, -⟩ := rounds_shifted b
  obtain ⟨hc, hc', -⟩ := rounds_shifted c
  obtain ⟨hd, hd', hd''⟩ := rounds_shifted d
  simp only [crcByte, loadLe32_eq, hsplit, rounds_xor, hb, hc, hc', hd, hd', hd'']
  ac_rfl

/-- The C++ loop takes the bytes in order. -/
theorem crcLoop_eq (crc : UInt32) (p : Bytes) : crcLoop crc p = p.foldl crcByte crc := by
  fun_induction crcLoop crc p with
  | case1 crc p0 p1 p2 p3 p4 p5 p6 p7 rest one two ih =>
    rw [ih]
    have height : crcByte (crcByte (crcByte (crcByte (crcByte (crcByte (crcByte (crcByte crc p0) p1) p2) p3) p4) p5)
        p6) p7 =
        crcRound^[64] one ^^^ crcRound^[32] two := by
      rw [crcByte_four, crcByte_four, rounds_xor, ← Function.iterate_add_apply]
    have hone := rounds_word 4 one
    have htwo := rounds_word 0 two
    simp only [List.foldl_cons, height]
    rw [show 64 = 8 * (4 + 4) by rfl, show 32 = 8 * (0 + 4) by rfl, hone, htwo]
    congr 1
    ac_rfl
  | case2 crc p rest h ih =>
    have hout : p.toUInt32 >>> 8 = 0 := by
      rw [← UInt32.toBitVec_inj]
      apply BitVec.eq_of_getLsbD_eq
      intro i hi
      simp
    rw [ih, List.foldl_cons, crcByte, rounds_byte, UInt32.shiftRight_xor, hout, UInt32.xor_zero]
  | case3 crc => rfl

/-- **Both sides compute the same checksum.** -/
theorem crc32_eq (p : Bytes) : Gateway.crc32 p = crc32 p := by
  rw [Gateway.crc32, crcLoop_eq, crc32]

/-! ## From any initial value -/

/-- `zlib.crc32(data, value)`. -/
def zlibCrc32 (data : Bytes) (value : UInt32) : UInt32 := ~~~data.foldl crcByte (~~~value)

/-- `crc32(p, n, crc)`. -/
def Cpp.crc32From (p : Bytes) (crc : UInt32) : UInt32 := ~~~crcLoop (~~~crc) p

/-- **Slicing by eight is CRC-32**, whatever the initial value, and the checksum of a piece is the initial value of
the next. -/
theorem crc32_sliced (p a b : Bytes) (crc : UInt32) :
    Cpp.crc32From p crc = zlibCrc32 p crc ∧ Cpp.crc32From b (Cpp.crc32From a crc) = Cpp.crc32From (a ++ b) crc := by
  constructor
  · rw [Cpp.crc32From, crcLoop_eq, zlibCrc32]
  · simp only [Cpp.crc32From, crcLoop_eq, UInt32.not_not, List.foldl_append]

end Mdfp

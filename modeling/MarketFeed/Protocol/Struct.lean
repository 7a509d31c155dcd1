import MarketFeed.Protocol.Frame
/-!
# `struct.pack` and `struct.unpack` of a `!` format

Big-endian and unpadded. A number has its code's width by its type; a `d` is the pattern of its 64 bits. What is
packed is read back where each text has the width of its code (`unpack_pack`).
-/

namespace Struct

open Gateway (Bytes putBe putBe_length)
open Mdfp (getBe getBe_putBe)

/-- `16s`, `Q`, `d`, `B`, `b`, `7x`. -/
inductive Code
  | s (n : ℕ)
  | Q
  | d
  | B
  | b
  | x (n : ℕ)
  deriving DecidableEq

inductive Value
  | bytes (b : Bytes)
  | u64 (v : UInt64)
  | f64 (bits : UInt64)
  | u8 (v : UInt8)
  | i8 (v : Int8)
  deriving DecidableEq

def Code.size : Code → ℕ
  | .s n | .x n => n
  | .Q | .d => 8
  | .B | .b => 1

def calcsize (f : List Code) : ℕ := f.foldr (fun c n => c.size + n) 0

/-- `none` is `struct.error`. -/
def pack : List Code → List Value → Option Bytes
  | [], [] => some []
  | .x n :: f, vs => (pack f vs).map (List.replicate n 0 ++ ·)
  | .s n :: f, .bytes b :: vs => (pack f vs).map (b.take n ++ List.replicate (n - b.length) 0 ++ ·)
  | .Q :: f, .u64 v :: vs => (pack f vs).map (putBe 8 v.toNat ++ ·)
  | .d :: f, .f64 v :: vs => (pack f vs).map (putBe 8 v.toNat ++ ·)
  | .B :: f, .u8 v :: vs => (pack f vs).map ([v] ++ ·)
  | .b :: f, .i8 v :: vs => (pack f vs).map ([v.toUInt8] ++ ·)
  | _, _ => none

def read : List Code → Bytes → List Value
  | [], _ => []
  | .x n :: f, b => read f (b.drop n)
  | .s n :: f, b => .bytes (b.take n) :: read f (b.drop n)
  | .Q :: f, b => .u64 (UInt64.ofNat (getBe (b.take 8))) :: read f (b.drop 8)
  | .d :: f, b => .f64 (UInt64.ofNat (getBe (b.take 8))) :: read f (b.drop 8)
  | .B :: f, b => .u8 (b.getD 0 0) :: read f (b.drop 1)
  | .b :: f, b => .i8 (b.getD 0 0).toInt8 :: read f (b.drop 1)

def unpack (f : List Code) (b : Bytes) : Option (List Value) := if b.length = calcsize f then some (read f b) else none

/-- Each text as wide as its code. -/
def Fits : List Code → List Value → Prop
  | .x _ :: f, vs => Fits f vs
  | .s n :: f, .bytes b :: vs => b.length = n ∧ Fits f vs
  | _ :: f, _ :: vs => Fits f vs
  | _, _ => True

theorem ofNat_getBe (v : UInt64) (b : Bytes) : UInt64.ofNat (getBe ((putBe 8 v.toNat ++ b).take 8)) = v := by
  have hv : v.toNat % 256 ^ 8 = v.toNat := Nat.mod_eq_of_lt v.toNat_lt
  rw [List.take_left' (putBe_length 8 v.toNat), getBe_putBe, hv, UInt64.ofNat_toNat]

@[simp] theorem calcsize_cons (c : Code) (f : List Code) : calcsize (c :: f) = c.size + calcsize f := rfl

/-- One field is written before the others, and its bytes are passed over. -/
theorem read_rest {f : List Code} {vs : List Value} {field b : Bytes} {n : ℕ} (hfield : field.length = n)
    (h : (pack f vs).map (field ++ ·) = some b)
    (ih : ∀ {r}, pack f vs = some r → read f r = vs ∧ r.length = calcsize f) :
    ∃ r, b = field ++ r ∧ read f ((field ++ r).drop n) = vs ∧ (field ++ r).length = n + calcsize f := by
  obtain ⟨r, hr, rfl⟩ := Option.map_eq_some_iff.1 h
  obtain ⟨hread, hlen⟩ := ih hr
  exact ⟨r, rfl, by rw [List.drop_left' hfield, hread], by rw [List.length_append, hfield, hlen]⟩

theorem read_pack {f : List Code} {vs : List Value} {b : Bytes} (h : pack f vs = some b) (hfits : Fits f vs) :
    read f b = vs ∧ b.length = calcsize f := by
  induction f, vs using pack.induct generalizing b with
  | case1 =>
    cases h
    exact ⟨rfl, rfl⟩
  | case2 n f vs ih =>
    obtain ⟨r, rfl, hread, hlen⟩ := read_rest List.length_replicate h fun hr => ih hr hfits
    exact ⟨hread, hlen⟩
  | case3 n f b' vs ih =>
    have hb : b'.take n ++ List.replicate (n - b'.length) 0 = b' := by
      rw [List.take_of_length_le (Nat.le_of_eq hfits.1), hfits.1, Nat.sub_self, List.replicate_zero, List.append_nil]
    rw [pack, hb] at h
    obtain ⟨r, rfl, hread, hlen⟩ := read_rest hfits.1 h fun hr => ih hr hfits.2
    exact ⟨by rw [read, List.take_left' hfits.1, hread], hlen⟩
  | case4 f v vs ih =>
    obtain ⟨r, rfl, hread, hlen⟩ := read_rest (putBe_length 8 v.toNat) h fun hr => ih hr hfits
    exact ⟨by rw [read, ofNat_getBe, hread], hlen⟩
  | case5 f v vs ih =>
    obtain ⟨r, rfl, hread, hlen⟩ := read_rest (putBe_length 8 v.toNat) h fun hr => ih hr hfits
    exact ⟨by rw [read, ofNat_getBe, hread], hlen⟩
  | case6 f v vs ih =>
    obtain ⟨r, rfl, hread, hlen⟩ := read_rest rfl h fun hr => ih hr hfits
    exact ⟨congrArg (Value.u8 v :: ·) hread, hlen⟩
  | case7 f v vs ih =>
    obtain ⟨r, rfl, hread, hlen⟩ := read_rest rfl h fun hr => ih hr hfits
    exact ⟨congrArg (Value.i8 v :: ·) hread, hlen⟩
  | case8 f vs h1 h2 h3 h4 h5 h6 h7 =>
    rw [pack] at h
    · cases h
    all_goals assumption

/-- **What is packed is unpacked**, from its first `calcsize` bytes. -/
theorem unpack_pack {f : List Code} {vs : List Value} {b : Bytes} (h : pack f vs = some b) (hfits : Fits f vs) :
    unpack f (b.take (calcsize f)) = some vs := by
  obtain ⟨hread, hlen⟩ := read_pack h hfits
  rw [List.take_of_length_le (Nat.le_of_eq hlen), unpack, if_pos hlen, hread]

end Struct
